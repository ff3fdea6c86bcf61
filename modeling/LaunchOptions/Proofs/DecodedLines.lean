import LaunchOptions.Proofs.MaximalStretches
import LaunchOptions.Proofs.TextLines

/-!
# Decoding and splitting

The lines of some bytes are decoded one by one. They are those of the text that the bytes decode to
as a whole: an ill-formed stretch ends before a line terminator, whatever it began as. So the number
of lines is a matter of terminators only, and the lines of the bytes of a text are those of that
text.
-/

namespace LaunchOptions

open LineSource (isTerminator lineFeed carriageReturn dropLineFeed cut? cut?_eq_some cut?_eq_none)
open Utf8 (decodeLossy replacement)

/-- The bytes after a terminator, without a line feed that belongs to it. -/
def afterTerminator (terminator : UInt8) (after : Bytes) : Bytes :=
  if terminator = carriageReturn then dropLineFeed after else after

/-- The line feed that belongs to a terminator is all that is left out. -/
theorem afterTerminator_cases (terminator : UInt8) (after : Bytes) :
    (terminator = carriageReturn ∧ after = lineFeed :: afterTerminator terminator after) ∨
      ((∀ rest, terminator = carriageReturn → after ≠ lineFeed :: rest) ∧
        afterTerminator terminator after = after) := by
  unfold afterTerminator
  by_cases ht : terminator = carriageReturn
  · cases after with
    | nil => simp [ht, dropLineFeed]
    | cons b rest =>
      by_cases hb : b = lineFeed
      · simp [ht, hb, dropLineFeed]
      · simp [ht, hb, dropLineFeed]
  · simp [ht]

private theorem length_afterTerminator_le (terminator : UInt8) (after : Bytes) :
    (afterTerminator terminator after).length ≤ after.length := by
  rcases afterTerminator_cases terminator after with ⟨-, h⟩ | ⟨-, h⟩
  · have hlength := congrArg List.length h
    rw [List.length_cons] at hlength
    omega
  · rw [h]

/-! ### Lines of bytes -/

private theorem byteLines_of_forall {line : Bytes} (h : ∀ b ∈ line, isTerminator b = false) :
    byteLines line = if line = [] then [] else [line] := by
  rw [byteLines, Segment.dropPaired_of_forall none h, List.splitOnP_eq_singleton h]
  by_cases hnil : line = []
  · simp [hnil]
  · simp [hnil]

/-- Bytes without a terminator are one line, unless there are none. -/
theorem contentLines_of_forall {line : Bytes} (h : ∀ b ∈ line, isTerminator b = false) :
    contentLines line = if line = [] then [] else [decodeLossy line] := by
  rw [contentLines, byteLines_of_forall h]
  split <;> rfl

private theorem byteLines_append {line : Bytes} {terminator : UInt8}
    (hline : ∀ b ∈ line, isTerminator b = false) (ht : isTerminator terminator) (after : Bytes) :
    byteLines (line ++ terminator :: after) =
      line :: byteLines (afterTerminator terminator after) := by
  have hafter : Segment.dropPaired (some terminator) after =
      Segment.dropPaired none (afterTerminator terminator after) := by
    rw [Segment.dropPaired_eq_dropLineFeed, afterTerminator]
    simp
  have hsplit := List.splitOnP_append_cons_of_forall_mem hline terminator ht
    (Segment.dropPaired none (afterTerminator terminator after))
  obtain ⟨piece, more, hpieces⟩ := List.exists_cons_of_ne_nil
    (List.splitOnP_ne_nil isTerminator (Segment.dropPaired none (afterTerminator terminator after)))
  rw [byteLines, Segment.dropPaired_line hline (by simp), hafter, hsplit, byteLines, hpieces]
  simp

/-- The first terminator ends the first line. -/
theorem contentLines_append {line : Bytes} {terminator : UInt8}
    (hline : ∀ b ∈ line, isTerminator b = false) (ht : isTerminator terminator) (after : Bytes) :
    contentLines (line ++ terminator :: after) =
      decodeLossy line :: contentLines (afterTerminator terminator after) := by
  rw [contentLines, byteLines_append hline ht, List.map_cons]
  rfl

/-- What holds of bytes without a terminator, and of a line with its terminator in front of bytes
for which it holds, holds of all bytes. -/
@[elab_as_elim]
theorem contentLines_induction {P : Bytes → Prop} (content : Bytes)
    (rest : ∀ line, (∀ b ∈ line, isTerminator b = false) → P line)
    (line : ∀ line terminator after, (∀ b ∈ line, isTerminator b = false) →
      isTerminator terminator → P (afterTerminator terminator after) →
      P (line ++ terminator :: after)) : P content := by
  induction hlength : content.length using Nat.strongRecOn generalizing content with
  | ind n ih =>
    cases hcut : cut? content with
    | none => exact rest content (cut?_eq_none hcut)
    | some parts =>
      obtain ⟨before, terminator, after⟩ := parts
      obtain ⟨rfl, hbefore, ht⟩ := cut?_eq_some hcut
      refine line before terminator after hbefore ht (ih _ ?_ _ rfl)
      have hle := length_afterTerminator_le terminator after
      rw [List.length_append, List.length_cons] at hlength
      omega

/-! ### Decoding before and after -/

/-- A line ends at a line feed or a carriage return. -/
theorem isTerminator_iff {b : UInt8} :
    isTerminator b ↔ b = lineFeed ∨ b = carriageReturn := by
  simp [isTerminator]

/-- A terminator is a character of its own, before which bytes may be cut. -/
theorem decodeLossy_append_terminator {terminator : UInt8} (h : isTerminator terminator)
    (before after : Bytes) :
    decodeLossy (before ++ terminator :: after) =
      decodeLossy before ++ Char.ofNat terminator.toNat :: decodeLossy after := by
  have hascii : terminator.toNat < 0x80 := by
    rcases isTerminator_iff.mp h with rfl | rfl <;> decide
  exact Utf8.decodeLossy_append_ascii hascii before after

private theorem ofNat_mem_lineBreaks {terminator : UInt8} (h : isTerminator terminator) :
    Char.ofNat terminator.toNat ∈ Text.lineBreaks := by
  rcases isTerminator_iff.mp h with rfl | rfl <;> decide

/-- A line feed that belongs to a terminator is left out of the bytes as it is of the text. -/
theorem decodeLossy_afterTerminator {terminator : UInt8} (h : isTerminator terminator)
    (after : Bytes) :
    decodeLossy (afterTerminator terminator after) =
      Text.afterBreak (Char.ofNat terminator.toNat) (decodeLossy after) := by
  have hterminator : Char.ofNat terminator.toNat = '\r' → terminator = carriageReturn := by
    rcases isTerminator_iff.mp h with rfl | rfl <;> decide
  rcases afterTerminator_cases terminator after with ⟨rfl, hafter⟩ | ⟨hpaired, hafter⟩
  · have hfeed : decodeLossy (lineFeed :: afterTerminator carriageReturn after) =
        '\n' :: decodeLossy (afterTerminator carriageReturn after) :=
      decodeLossy_append_terminator (by decide) [] _
    conv_rhs => rw [hafter, hfeed]
    rfl
  · rw [hafter]
    rcases Text.afterBreak_cases (Char.ofNat terminator.toNat) (decodeLossy after) with
      ⟨hreturn, hfeed⟩ | ⟨-, hbreak⟩
    · -- Only a line feed decodes to the character of one.
      have hhead : (decodeLossy after).head? = some '\n' := by rw [hfeed, List.head?_cons]
      obtain ⟨rest, hrest⟩ := Utf8.encodeChar_isPrefix hhead (by decide)
      exact absurd hrest.symm (hpaired rest (hterminator hreturn))
    · exact hbreak.symm

/-- The lines of some bytes are those of the text that they decode to. -/
theorem contentLines_eq_lines (content : Bytes) :
    contentLines content = (decodeLossy content).lines := by
  induction content using contentLines_induction with
  | rest line hline =>
    rw [contentLines_of_forall hline]
    split
    · next hnil =>
      subst hnil
      rfl
    · next hne =>
      have hbreaks : ∀ c ∈ decodeLossy line, c ∉ Text.lineBreaks :=
        fun c hc hbreak ↦ not_mem_decodeLossy hline hbreak hc
      rw [Text.lines_of_forall hbreaks (Utf8.decodeLossy_ne_nil hne)]
  | line line terminator after hline ht ih =>
    have hbreaks : ∀ c ∈ decodeLossy line, c ∉ Text.lineBreaks :=
      fun c hc hbreak ↦ not_mem_decodeLossy hline hbreak hc
    rw [contentLines_append hline ht, ih, decodeLossy_append_terminator ht,
      Text.lines_append_break hbreaks (ofNat_mem_lineBreaks ht), decodeLossy_afterTerminator ht]

/-! ### The number of lines -/

/-- The number of line feeds that belong to the carriage return before them. -/
def pairedFeeds (content : Bytes) : Nat :=
  (content.zip content.tail).count (carriageReturn, lineFeed)

private theorem pairedFeeds_cons_cons (a b : UInt8) (rest : Bytes) :
    pairedFeeds (a :: b :: rest) =
      pairedFeeds (b :: rest) + if a = carriageReturn ∧ b = lineFeed then 1 else 0 := by
  simp [pairedFeeds, List.count_cons, Prod.ext_iff]

/-- A byte other than a carriage return has no line feed that belongs to it. -/
theorem pairedFeeds_cons {a : UInt8} (h : a ≠ carriageReturn) (rest : Bytes) :
    pairedFeeds (a :: rest) = pairedFeeds rest := by
  cases rest with
  | nil => rfl
  | cons b more => rw [pairedFeeds_cons_cons, if_neg (fun hpair ↦ h hpair.1), Nat.add_zero]

private theorem pairedFeeds_append {line : Bytes} (h : ∀ b ∈ line, isTerminator b = false)
    (rest : Bytes) :
    pairedFeeds (line ++ rest) = pairedFeeds rest := by
  induction line with
  | nil => rfl
  | cons b more ih =>
    have hb : b ≠ carriageReturn := by
      rintro rfl
      exact absurd (h carriageReturn (by simp)) (by decide)
    rw [List.cons_append, pairedFeeds_cons hb, ih fun x hx ↦ h x (by simp [hx])]

/-- Of a terminator and what follows it, one line feed at most belongs to a carriage return and is
left out. -/
theorem pairedFeeds_terminator (terminator : UInt8) (after : Bytes) :
    pairedFeeds (terminator :: after) + (afterTerminator terminator after).countP isTerminator =
      pairedFeeds (afterTerminator terminator after) + after.countP isTerminator := by
  rcases afterTerminator_cases terminator after with ⟨rfl, h⟩ | ⟨hpaired, h⟩
  · generalize afterTerminator carriageReturn after = rest at h ⊢
    subst h
    have hpair : carriageReturn = carriageReturn ∧ lineFeed = lineFeed := ⟨rfl, rfl⟩
    rw [pairedFeeds_cons_cons, if_pos hpair, pairedFeeds_cons (by decide),
      List.countP_cons_of_pos (by decide)]
    omega
  · rw [h]
    cases after with
    | nil => rfl
    | cons b rest =>
      have hpair : ¬ (terminator = carriageReturn ∧ b = lineFeed) :=
        fun hpair ↦ hpaired rest hpair.1 (by rw [hpair.2])
      rw [pairedFeeds_cons_cons, if_neg hpair, Nat.add_zero]

/-- Bytes that stop after a terminator end with one. -/
private theorem all_getLast?_append {terminator : UInt8} (ht : isTerminator terminator)
    (line after : Bytes) :
    (line ++ terminator :: after).getLast?.all isTerminator = after.getLast?.all isTerminator := by
  cases after with
  | nil => simp [ht]
  | cons b rest => simp [List.getLast?_append, List.getLast?_cons]

/-- There is a line for each terminator, where a carriage return and a line feed after it are one,
and a line for the bytes that follow the last terminator. -/
theorem length_contentLines (content : Bytes) :
    (contentLines content).length + pairedFeeds content =
      content.countP isTerminator + if content.getLast?.all isTerminator then 0 else 1 := by
  induction content using contentLines_induction with
  | rest line hline =>
    have hcount : line.countP isTerminator = 0 :=
      List.countP_eq_zero.mpr fun b hb ↦ by simp [hline b hb]
    have hpaired := pairedFeeds_append hline []
    rw [List.append_nil] at hpaired
    rw [contentLines_of_forall hline, hcount, hpaired]
    by_cases hnil : line = []
    · subst hnil
      rfl
    · rw [List.getLast?_eq_some_getLast hnil]
      simp [hnil, hline _ (List.getLast_mem hnil), pairedFeeds]
  | line line terminator after hline ht ih =>
    have hcount : line.countP isTerminator = 0 :=
      List.countP_eq_zero.mpr fun b hb ↦ by simp [hline b hb]
    have hlast : (line ++ terminator :: after).getLast?.all isTerminator =
        (afterTerminator terminator after).getLast?.all isTerminator := by
      rw [all_getLast?_append ht]
      rcases afterTerminator_cases terminator after with ⟨-, h⟩ | ⟨-, h⟩
      · conv_lhs => rw [h]
        exact all_getLast?_append (by decide) [] _
      · rw [h]
    have hpaired := pairedFeeds_terminator terminator after
    rw [contentLines_append hline ht, pairedFeeds_append hline, List.countP_append, hcount,
      List.countP_cons_of_pos ht, List.length_cons, hlast]
    omega

/-! ### The bytes of a text, and characters that are cut short -/

/-- The lines of an encoded text are those of the text. -/
theorem contentLines_encode (t : Text) : contentLines (Utf8.encode t) = t.lines := by
  rw [contentLines_eq_lines, Utf8.decodeLossy_encode]

/-- A character that is cut short before a terminator takes the place of the character: it changes
nothing but one character of its own line. -/
theorem exists_contentLines_truncated (before after : Bytes) {part : Bytes} {c : Char}
    {terminator : UInt8} (hpart : part <+: String.utf8EncodeChar c) (hnil : part ≠ [])
    (hcut : part ≠ String.utf8EncodeChar c) (ht : isTerminator terminator) :
    ∃ earlier line,
      contentLines (before ++ part ++ terminator :: after) =
        earlier ++ (line ++ [replacement]) ::
          contentLines (afterTerminator terminator after) ∧
      contentLines (before ++ String.utf8EncodeChar c ++ terminator :: after) =
        earlier ++ (line ++ [c]) :: contentLines (afterTerminator terminator after) := by
  have hbreak : c ∉ Text.lineBreaks := by
    have hsingleton {b : UInt8} (h : String.utf8EncodeChar c = [b]) : False := by
      rw [h] at hpart hcut
      rcases List.prefix_cons_iff.mp hpart with hp | ⟨rest, hp, hrest⟩
      · exact hnil hp
      · rw [List.prefix_nil.mp hrest] at hp
        exact hcut hp
    intro hc
    rcases Text.mem_lineBreaks.mp hc with rfl | rfl
    · exact hsingleton rfl
    · exact hsingleton rfl
  have hreplaced : decodeLossy (before ++ part) = decodeLossy before ++ [replacement] := by
    rw [decodeLossy, Utf8.scan_append_begun ⟨c, hpart⟩ hnil, Utf8.scan_of_truncated hpart hnil hcut,
      List.map_append]
    rfl
  have hwhole : decodeLossy (before ++ String.utf8EncodeChar c) = decodeLossy before ++ [c] := by
    rw [decodeLossy, Utf8.scan_append_begun ⟨c, List.prefix_rfl⟩ String.utf8EncodeChar_ne_nil,
      Utf8.scan_encodeChar, List.map_append]
    rfl
  obtain ⟨earlier, line, hlines⟩ := Text.exists_lines_append_cons (decodeLossy before)
    (decodeLossy after) (ofNat_mem_lineBreaks ht)
  have hlater : contentLines (afterTerminator terminator after) =
      (Text.afterBreak (Char.ofNat terminator.toNat) (decodeLossy after)).lines := by
    rw [contentLines_eq_lines, decodeLossy_afterTerminator ht]
  refine ⟨earlier, line, ?_, ?_⟩
  · rw [contentLines_eq_lines, decodeLossy_append_terminator ht, hreplaced, List.append_assoc,
      List.singleton_append, hlines replacement (by decide), hlater]
  · rw [contentLines_eq_lines, decodeLossy_append_terminator ht, hwhole, List.append_assoc,
      List.singleton_append, hlines c hbreak, hlater]

/-! ### Lines of a content -/

/-- The lines that are read of a content are those of the text that its one reading stands for.
There is a line for each terminator, and one for the bytes after the last terminator. The lines of
the bytes of a text are stretches of it, and nothing of it but line breaks is lost. A character that
is cut short before a terminator becomes a replacement in its place, and no other line changes. -/
theorem lines?_eq_lines_decodeLossy :
    (∀ content : Bytes, ∃ units lines, (∀ us, Utf8.Reads content us ↔ us = units) ∧
      (LineSource.ofBytes content).lines? = some lines ∧
      lines = Text.lines (units.map (·.getD replacement)) ∧
      lines.length + pairedFeeds content =
        content.countP isTerminator + if content.getLast?.all isTerminator then 0 else 1) ∧
    (∀ t : Text, ∃ lines, (LineSource.ofBytes (Utf8.encode t)).lines? = some lines ∧
      lines = t.lines ∧ (∀ line ∈ lines, line <:+: t) ∧
      lines.flatten = t.filter (· ∉ Text.lineBreaks)) ∧
    ∀ (before part after : Bytes) (c : Char) (terminator : UInt8),
      part <+: String.utf8EncodeChar c → part ≠ [] → part ≠ String.utf8EncodeChar c →
      isTerminator terminator →
      ∃ earlier line later,
        (LineSource.ofBytes (afterTerminator terminator after)).lines? = some later ∧
        (LineSource.ofBytes (before ++ part ++ terminator :: after)).lines? =
          some (earlier ++ (line ++ [replacement]) :: later) ∧
        (LineSource.ofBytes (before ++ String.utf8EncodeChar c ++ terminator :: after)).lines? =
          some (earlier ++ (line ++ [c]) :: later) := by
  refine ⟨fun content ↦ ?_, fun t ↦ ?_, fun before part after c terminator hpart hnil hcut ht ↦ ?_⟩
  · exact ⟨Utf8.scan content, contentLines content, fun us ↦ Utf8.reads_iff,
      LineSource.lines?_ofBytes content, contentLines_eq_lines content,
      length_contentLines content⟩
  · refine ⟨t.lines, ?_, rfl, (Text.lines_isInfix t).2, Text.flatten_lines t⟩
    rw [LineSource.lines?_ofBytes, contentLines_encode]
  · obtain ⟨earlier, line, htruncated, hwhole⟩ :=
      exists_contentLines_truncated before after hpart hnil hcut ht
    refine ⟨earlier, line, contentLines (afterTerminator terminator after), ?_, ?_, ?_⟩
    · rw [LineSource.lines?_ofBytes]
    · rw [LineSource.lines?_ofBytes, htruncated]
    · rw [LineSource.lines?_ofBytes, hwhole]

/-- Two of the three bytes of a character, between another character and a line break of two bytes;
and a text with a line break. -/
theorem lines?_eq_lines_decodeLossy_truncated :
    ([0xE2, 0x82] : Bytes) <+: String.utf8EncodeChar '€' ∧
      ([0xE2, 0x82] : Bytes) ≠ String.utf8EncodeChar '€' ∧ isTerminator 13 ∧
      (∃ earlier line later,
        (LineSource.ofBytes (afterTerminator 13 [10, 98])).lines? = some later ∧
        (LineSource.ofBytes ([97] ++ [0xE2, 0x82] ++ 13 :: [10, 98])).lines? =
          some (earlier ++ (line ++ [replacement]) :: later) ∧
        (LineSource.ofBytes ([97] ++ String.utf8EncodeChar '€' ++ 13 :: [10, 98])).lines? =
          some (earlier ++ (line ++ ['€']) :: later)) ∧
      ∃ lines, (LineSource.ofBytes (Utf8.encode ['é', '\r', 'b'])).lines? = some lines ∧
        ['b'] ∈ lines ∧ ['b'] <:+: ['é', '\r', 'b'] := by
  have hpart : ([0xE2, 0x82] : Bytes) <+: String.utf8EncodeChar '€' := by decide
  have hcut : ([0xE2, 0x82] : Bytes) ≠ String.utf8EncodeChar '€' := by decide
  obtain ⟨-, htext, htruncated⟩ := lines?_eq_lines_decodeLossy
  obtain ⟨lines, hlines, rfl, hstretch, -⟩ := htext ['é', '\r', 'b']
  have hmem : ['b'] ∈ Text.lines ['é', '\r', 'b'] := by decide
  exact ⟨hpart, hcut, by decide,
    htruncated [97] [0xE2, 0x82] [10, 98] '€' 13 hpart (by decide) hcut (by decide),
    _, hlines, hmem, hstretch _ hmem⟩

end LaunchOptions

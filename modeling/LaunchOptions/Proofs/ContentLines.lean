import LaunchOptions.Proofs.LineReader

/-!
# The lines of a content

Reading a source up to its first end of file gives the lines among its results, unless a failure
comes first. A content in one piece does not fail: its lines are the pieces between terminators.
-/

namespace LaunchOptions

/-- The bytes of the lines of a content: the pieces between its terminators, where a line feed right
after a carriage return does not count. After the last terminator there is a line only if there are
bytes left. -/
def byteLines (content : Bytes) : List Bytes :=
  let pieces := (Segment.dropPaired none content).splitOnP LineSource.isTerminator
  let rest := pieces.getLastD []
  pieces.dropLast ++ if rest = [] then [] else [rest]

/-- The lines of a content. -/
def contentLines (content : Bytes) : List Text := (byteLines content).map Utf8.decodeLossy

namespace LineSource

/-- The lines among some results up to the first end of file, or `none` if a failure comes first. -/
def linesOf? : List LineResult → Option (List Text)
  | [] => some []
  | .line text :: rest => (linesOf? rest).map (text :: ·)
  | .atEnd :: _ => some []
  | .failed :: _ => none

private theorem linesOf?_append (pieces : List Bytes) (rest : List LineResult) :
    linesOf? (pieces.map (fun piece ↦ .line (Utf8.decodeLossy piece)) ++ rest) =
      (linesOf? rest).map (pieces.map Utf8.decodeLossy ++ ·) := by
  induction pieces with
  | nil => simp
  | cons piece more ih => simp [linesOf?, ih, Function.comp_def]

/-- The lines that are read are those among the results that are due. -/
theorem lines?_eq_linesOf? {source : LineSource} {previous : Option UInt8}
    (h : source.afterReturn = (previous == some carriageReturn)) :
    source.lines? = linesOf? (Segment.allResults previous source.deliveries) := by
  fun_induction lines? source generalizing previous with
  | case1 source hend =>
    obtain ⟨_, -, hdue⟩ := gives_next h
    rw [hend] at hdue
    rcases hdue with hdue | ⟨hdue, -⟩ <;> rw [hdue] <;> rfl
  | case2 source hfailed =>
    obtain ⟨_, -, hdue⟩ := gives_next h
    rw [hfailed] at hdue
    rcases hdue with hdue | ⟨hdue, -⟩ <;> rw [hdue] <;> rfl
  | case3 source text hline hnil =>
    rw [next_of_deliveries_nil hnil] at hline
    cases hline
  | case4 source text hline _ ih =>
    obtain ⟨previous', hflag, hdue⟩ := gives_next h
    rw [hline] at hdue
    rw [ih hflag]
    rcases hdue with hdue | ⟨hdue, hend⟩
    · rw [hdue, Segment.pending_nil]
      rfl
    · rw [hdue, hend]
      rfl

/-- Deliveries that hand out some bytes and no failure: in chunks, with interruptions between them,
up to the end of file. -/
inductive Delivers : List Delivery → Bytes → Prop where
  | nil : Delivers [] []
  | endOfFile : Delivers [.chunk []] []
  | interrupted {rest : List Delivery} {content : Bytes} (h : Delivers rest content) :
    Delivers (.interrupted :: rest) content
  | chunk {bytes : Bytes} {rest : List Delivery} {content : Bytes} (hb : bytes ≠ [])
    (h : Delivers rest content) : Delivers (.chunk bytes :: rest) (bytes ++ content)

/-- A content in one piece is delivered as a whole. -/
theorem delivers_ofBytes (content : Bytes) : Delivers (ofBytes content).deliveries content := by
  by_cases hc : content = []
  · subst hc
    exact .endOfFile
  · simpa [ofBytes] using Delivers.chunk hc .nil

/-- What is handed out is one segment. If the end of file is reported, there is an empty one after
it. -/
theorem Delivers.ofDeliveries_eq {deliveries : List Delivery} {content : Bytes}
    (h : Delivers deliveries content) :
    Segment.ofDeliveries deliveries = [⟨content, .endOfFile⟩] ∨
      Segment.ofDeliveries deliveries = [⟨content, .endOfFile⟩, ⟨[], .endOfFile⟩] := by
  induction h with
  | nil => exact .inl rfl
  | endOfFile => exact .inr rfl
  | interrupted _ ih => exact ih
  | chunk hb _ ih =>
    rw [Segment.ofDeliveries, if_neg hb]
    rcases ih with ih | ih
    · exact .inl (by rw [ih]; rfl)
    · exact .inr (by rw [ih]; rfl)

/-- The results of one segment that ends with an end of file are its lines. -/
theorem linesOf?_results (content : Bytes) (after : List LineResult)
    (hafter : after = [] ∨ after = [.atEnd]) :
    linesOf? (Segment.results ⟨Segment.dropPaired none content, .endOfFile⟩ ++ after) =
      some (contentLines content) := by
  rw [Segment.results, List.append_assoc, linesOf?_append, contentLines, byteLines]
  simp only [Segment.lastResult]
  rcases hafter with rfl | rfl
  · split <;> simp [linesOf?]
  · split <;> simp [linesOf?]

/-- A content is read to its end, whatever chunks it is delivered in. -/
theorem Delivers.lines? {deliveries : List Delivery} {content : Bytes}
    (h : Delivers deliveries content) :
    LineSource.lines? ⟨deliveries, false⟩ = some (contentLines content) := by
  have hflag : (⟨deliveries, false⟩ : LineSource).afterReturn =
      ((none : Option UInt8) == some carriageReturn) := rfl
  rw [lines?_eq_linesOf? hflag, Segment.allResults]
  rcases h.ofDeliveries_eq with hsegments | hsegments
  · have hdue := linesOf?_results content [] (.inl rfl)
    rw [hsegments]
    simpa [Segment.dropAllPaired] using hdue
  · have hdue := linesOf?_results content [.atEnd] (.inr rfl)
    rw [hsegments]
    simpa [Segment.dropAllPaired, Segment.dropPaired, Segment.results, Segment.lastResult]
      using hdue

/-- A content in one piece is read to its end. -/
theorem lines?_ofBytes (content : Bytes) :
    (ofBytes content).lines? = some (contentLines content) :=
  (delivers_ofBytes content).lines?

end LineSource

end LaunchOptions

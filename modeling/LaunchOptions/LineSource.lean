import LaunchOptions.Text.Utf8

/-!
# Line sources

A line source hands out bytes in chunks. A chunk without bytes reports an end of file, after which
more may come; a delivery can also fail. `next` takes one line off a source. Lines end at a line
feed, a carriage return, or both in that order, even if chunks, reports of an end of file or
failures come between the two.

Specification: `SPEC_FULL.md`, section 4.2 (processing).
-/

namespace LaunchOptions

/-- What a source hands out at a time. -/
inductive Delivery where
  /-- Bytes; no bytes report an end of file. -/
  | chunk (bytes : Bytes)
  /-- A failure that goes away when the delivery is asked for again. -/
  | interrupted
  /-- A failure for good: what was gathered of a line is lost. -/
  | broken
  deriving DecidableEq, Repr

/-- What a delivery weighs: itself and its bytes. -/
def Delivery.weight : Delivery → Nat
  | .chunk bytes => bytes.length + 1
  | .interrupted | .broken => 1

/-- A source of lines: the deliveries to come, and whether a line feed at their beginning belongs
to the line before. Past the last delivery there is the end of file for ever. -/
structure LineSource where
  deliveries : List Delivery
  afterReturn : Bool := false
  deriving DecidableEq, Repr

/-- The result of asking for a line. -/
inductive LineResult where
  /-- A line, decoded. -/
  | line (text : Text)
  /-- An end of file without a line before it. -/
  | atEnd
  /-- The source is broken. -/
  | failed
  deriving DecidableEq, Repr

namespace LineSource

/-- The byte of a line feed. -/
def lineFeed : UInt8 := 10

/-- The byte of a carriage return. -/
def carriageReturn : UInt8 := 13

/-- Whether a byte ends a line. -/
def isTerminator (b : UInt8) : Bool := b == lineFeed || b == carriageReturn

/-- The source of some bytes in one chunk. -/
def ofBytes (bytes : Bytes) : LineSource := ⟨[.chunk bytes], false⟩

/-- The bytes without a line feed at their beginning. -/
def dropLineFeed : Bytes → Bytes
  | b :: rest => if b = lineFeed then rest else b :: rest
  | [] => []

/-- The bytes before the first terminator, that terminator, and the bytes after it. -/
def cut? : Bytes → Option (Bytes × UInt8 × Bytes)
  | [] => none
  | b :: rest =>
    if isTerminator b then some ([], b, rest)
    else (cut? rest).map (fun (line, terminator, after) ↦ (b :: line, terminator, after))

/-- The deliveries after a part of a chunk has been used; a used-up chunk is gone. -/
def unread (bytes : Bytes) (deliveries : List Delivery) : List Delivery :=
  if bytes.isEmpty then deliveries else .chunk bytes :: deliveries

/-- The result at an end of file. -/
def lastLine (held : Bytes) : LineResult :=
  if held.isEmpty then .atEnd else .line (Utf8.decodeLossy held)

/-- Ask for a line when some bytes of it are held already. -/
def nextFrom (held : Bytes) (afterReturn : Bool) : List Delivery → LineResult × LineSource
  | [] => (lastLine held, ⟨[], afterReturn⟩)
  | .interrupted :: rest => nextFrom held afterReturn rest
  | .broken :: rest => (.failed, ⟨rest, afterReturn⟩)
  | .chunk bytes :: rest =>
    if bytes.isEmpty then (lastLine held, ⟨rest, afterReturn⟩)
    else
      let bytes := if afterReturn then dropLineFeed bytes else bytes
      match cut? bytes with
      | some (line, terminator, after) =>
        (.line (Utf8.decodeLossy (held ++ line)),
          ⟨unread after rest, terminator == carriageReturn⟩)
      | none => nextFrom (held ++ bytes) false rest

/-- Ask for a line. -/
def next (source : LineSource) : LineResult × LineSource :=
  nextFrom [] source.afterReturn source.deliveries

/-- What is left in a source: each delivery and each byte counts. -/
def weight (source : LineSource) : Nat :=
  source.deliveries.foldr (fun delivery rest ↦ delivery.weight + rest) 0

private theorem length_cut? {bytes line after : Bytes} {terminator : UInt8}
    (h : cut? bytes = some (line, terminator, after)) : after.length < bytes.length := by
  induction bytes generalizing line with
  | nil => simp [cut?] at h
  | cons b rest ih =>
    simp only [cut?] at h
    split at h
    · cases h
      simp
    · obtain ⟨⟨l, t, a⟩, hc, he⟩ := Option.map_eq_some_iff.mp h
      cases he
      exact Nat.lt_succ_of_lt (ih hc)

private theorem length_dropLineFeed_le (bytes : Bytes) :
    (dropLineFeed bytes).length ≤ bytes.length := by
  cases bytes with
  | nil => simp [dropLineFeed]
  | cons b rest =>
    simp only [dropLineFeed]
    split <;> simp

private theorem weight_nextFrom_lt (held : Bytes) (afterReturn : Bool) (deliveries : List Delivery)
    (h : deliveries ≠ []) :
    (nextFrom held afterReturn deliveries).2.weight < weight ⟨deliveries, afterReturn⟩ := by
  induction deliveries generalizing held afterReturn with
  | nil => exact absurd rfl h
  | cons d rest ih =>
    have tail (held : Bytes) (afterReturn : Bool) :
        (nextFrom held afterReturn rest).2.weight ≤ weight ⟨rest, afterReturn⟩ := by
      cases rest with
      | nil => simp [nextFrom, weight]
      | cons e more => exact Nat.le_of_lt (ih held afterReturn (by simp))
    cases d with
    | interrupted =>
      have := tail held afterReturn
      simp only [nextFrom, weight, Delivery.weight, List.foldr_cons] at this ⊢
      omega
    | broken => simp [nextFrom, weight, Delivery.weight]
    | chunk bytes =>
      simp only [nextFrom]
      split
      · simp only [weight, Delivery.weight, List.foldr_cons]
        omega
      · have hl : (if afterReturn then dropLineFeed bytes else bytes).length ≤ bytes.length := by
          split
          · exact length_dropLineFeed_le bytes
          · exact Nat.le_refl _
        split
        · next line terminator after hc =>
          have := length_cut? hc
          simp only [unread, weight, Delivery.weight, List.foldr_cons]
          split
          · omega
          · simp only [List.foldr_cons]
            omega
        · have := tail (held ++ if afterReturn then dropLineFeed bytes else bytes) false
          simp only [weight, Delivery.weight, List.foldr_cons] at this ⊢
          omega

/-- Asking for a line uses up some of what a source has left. -/
theorem weight_next_lt (source : LineSource) (h : source.deliveries ≠ []) :
    source.next.2.weight < source.weight :=
  weight_nextFrom_lt [] source.afterReturn source.deliveries h

/-- A source with nothing to come is at its end and stays there. -/
theorem next_of_deliveries_nil {source : LineSource} (h : source.deliveries = []) :
    source.next = (.atEnd, source) := by
  cases source with
  | mk deliveries afterReturn =>
    cases h
    rfl

/-- The lines up to the first end of file, or `none` if the source breaks before it. -/
def lines? (source : LineSource) : Option (List Text) :=
  match source.next.1 with
  | .atEnd => some []
  | .failed => none
  | .line text =>
    if source.deliveries = [] then some [text]
    else (lines? source.next.2).map (text :: ·)
termination_by source.weight
decreasing_by exact weight_next_lt source ‹_›

/-- The results of asking again and again, until an end of file with nothing to come. -/
def results (source : LineSource) : List LineResult :=
  if source.deliveries = [] then [source.next.1]
  else if source.next.1 = .atEnd ∧ source.next.2.deliveries = [] then [.atEnd]
  else source.next.1 :: results source.next.2
termination_by source.weight
decreasing_by exact weight_next_lt source ‹_›

end LineSource

end LaunchOptions

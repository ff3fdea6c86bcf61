import LaunchOptions.LineSource

/-!
# Segments

What a line source has to give, said without reading it. Its bytes fall into segments, each of
which ends with a report of an end of file or with a failure; interruptions do not count. A line
feed right after a carriage return is no part of any segment, wherever the segments are cut. What is
left of a segment is split at its terminators.
-/

namespace LaunchOptions

/-- How a segment ends. -/
inductive SegmentEnd where
  | endOfFile
  | failure
  deriving DecidableEq, Repr

/-- The bytes up to a report of an end of file or a failure. -/
structure Segment where
  bytes : Bytes
  ending : SegmentEnd
  deriving DecidableEq, Repr

namespace Segment

open LineSource (isTerminator lineFeed carriageReturn)

/-- The segment with some bytes before its own. -/
def prepend (bytes : Bytes) (segment : Segment) : Segment :=
  { segment with bytes := bytes ++ segment.bytes }

/-- The segments of some deliveries. Past the last delivery there is an end of file. -/
def ofDeliveries : List Delivery → List Segment
  | [] => [⟨[], .endOfFile⟩]
  | .interrupted :: rest => ofDeliveries rest
  | .broken :: rest => ⟨[], .failure⟩ :: ofDeliveries rest
  | .chunk bytes :: rest =>
    if bytes = [] then ⟨[], .endOfFile⟩ :: ofDeliveries rest
    else (ofDeliveries rest).modifyHead (prepend bytes)

/-- The bytes without the line feeds that come right after a carriage return; `previous` is the byte
that was delivered before them. -/
def dropPaired (previous : Option UInt8) : Bytes → Bytes
  | [] => []
  | b :: rest =>
    if b = lineFeed ∧ previous = some carriageReturn then dropPaired (some b) rest
    else b :: dropPaired (some b) rest

/-- Segments without the line feeds that come right after a carriage return, be it the last byte of
a segment before. -/
def dropAllPaired (previous : Option UInt8) : List Segment → List Segment
  | [] => []
  | segment :: rest =>
    { segment with bytes := dropPaired previous segment.bytes } ::
      dropAllPaired (segment.bytes.getLast?.or previous) rest

/-- The result that a segment ends with, after its last terminator. -/
def lastResult (rest : Bytes) : SegmentEnd → LineResult
  | .endOfFile => if rest = [] then .atEnd else .line (Utf8.decodeLossy rest)
  | .failure => .failed

/-- The results of a segment: its lines, and what its end makes of the bytes after them. -/
def results (segment : Segment) : List LineResult :=
  let pieces := segment.bytes.splitOnP isTerminator
  pieces.dropLast.map (fun piece ↦ .line (Utf8.decodeLossy piece)) ++
    [lastResult (pieces.getLastD []) segment.ending]

/-- The results of some deliveries that follow a byte. -/
def allResults (previous : Option UInt8) (deliveries : List Delivery) : List LineResult :=
  (dropAllPaired previous (ofDeliveries deliveries)).flatMap results

/-! ### Segments of deliveries -/

private theorem prepend_prepend (a b : Bytes) (segment : Segment) :
    prepend a (prepend b segment) = prepend (a ++ b) segment := by
  simp [prepend]

/-- There is a last segment. -/
theorem ofDeliveries_ne_nil (deliveries : List Delivery) : ofDeliveries deliveries ≠ [] := by
  induction deliveries with
  | nil => simp [ofDeliveries]
  | cons d rest ih =>
    cases d with
    | interrupted => exact ih
    | broken => simp [ofDeliveries]
    | chunk bytes =>
      simp only [ofDeliveries]
      split
      · simp
      · simpa using ih

/-- Interruptions do not count. -/
theorem ofDeliveries_filter (deliveries : List Delivery) :
    ofDeliveries (deliveries.filter (· ≠ .interrupted)) = ofDeliveries deliveries := by
  induction deliveries with
  | nil => rfl
  | cons d rest ih => cases d <;> simp_all [ofDeliveries]

/-! ### Line feeds after carriage returns -/

/-- Of the byte before, it only matters whether it is a carriage return. -/
theorem dropPaired_congr {p q : Option UInt8}
    (h : p = some carriageReturn ↔ q = some carriageReturn) (bytes : Bytes) :
    dropPaired p bytes = dropPaired q bytes := by
  cases bytes with
  | nil => rfl
  | cons b rest => simp only [dropPaired, h]

/-- The bytes are dropped one after another, each by the byte before it. -/
theorem dropPaired_append (previous : Option UInt8) (a b : Bytes) :
    dropPaired previous (a ++ b) =
      dropPaired previous a ++ dropPaired (a.getLast?.or previous) b := by
  induction a generalizing previous with
  | nil => rfl
  | cons x rest ih =>
    have hlast : (x :: rest).getLast?.or previous = rest.getLast?.or (some x) := by
      cases rest with
      | nil => rfl
      | cons y more => simp [List.getLast?_cons]
    rw [hlast, List.cons_append]
    simp only [dropPaired]
    split
    · rw [ih]
    · rw [ih, List.cons_append]

/-- A byte that ends a line counts, unless it is a line feed after a carriage return. -/
theorem dropPaired_line {line after : Bytes} {terminator : UInt8} {previous : Option UInt8}
    (hl : ∀ b ∈ line, isTerminator b = false) (hp : previous ≠ some carriageReturn) :
    dropPaired previous (line ++ terminator :: after) =
      line ++ terminator :: dropPaired (some terminator) after := by
  induction line generalizing previous with
  | nil => simp [dropPaired, hp]
  | cons b rest ih =>
    have hb : isTerminator b = false := hl b (by simp)
    have hreturn : some b ≠ some carriageReturn := by
      intro h
      rw [Option.some.inj h] at hb
      exact absurd hb (by decide)
    rw [List.cons_append, dropPaired, if_neg (fun h ↦ hp h.2), List.cons_append,
      ih (fun x hx ↦ hl x (by simp [hx])) hreturn]

/-- Bytes without a terminator all count. -/
theorem dropPaired_of_forall {bytes : Bytes} (previous : Option UInt8)
    (h : ∀ b ∈ bytes, isTerminator b = false) : dropPaired previous bytes = bytes := by
  induction bytes generalizing previous with
  | nil => rfl
  | cons b rest ih =>
    have hb : b ≠ lineFeed := by
      rintro rfl
      exact absurd (h lineFeed (by simp)) (by decide)
    rw [dropPaired, if_neg (fun hc ↦ hb hc.1), ih (some b) (fun x hx ↦ h x (by simp [hx]))]

/-- After a carriage return, one line feed at the beginning does not count. -/
theorem dropPaired_eq_dropLineFeed (previous : Option UInt8) (bytes : Bytes) :
    dropPaired previous bytes =
      dropPaired none (if previous == some carriageReturn then LineSource.dropLineFeed bytes
        else bytes) := by
  by_cases hp : previous = some carriageReturn
  · subst hp
    cases bytes with
    | nil => rfl
    | cons b rest =>
      by_cases hb : b = lineFeed
      · subst hb
        have hfeed : some lineFeed = some carriageReturn ↔ none = some carriageReturn := by decide
        simp [dropPaired, LineSource.dropLineFeed, dropPaired_congr hfeed]
      · simp [dropPaired, LineSource.dropLineFeed, hb]
  · have hp' : (previous == some carriageReturn) = false := by simpa using hp
    rw [hp', dropPaired_congr (p := previous) (q := none) (by simp [hp])]
    simp

/-- Bytes that come first are looked at first. -/
theorem dropAllPaired_prepend (previous : Option UInt8) (bytes : Bytes) (segments : List Segment) :
    dropAllPaired previous (segments.modifyHead (prepend bytes)) =
      (dropAllPaired (bytes.getLast?.or previous) segments).modifyHead
        (prepend (dropPaired previous bytes)) := by
  cases segments with
  | nil => rfl
  | cons segment rest =>
    simp [dropAllPaired, prepend, dropPaired_append, List.getLast?_append, Option.or_assoc]

private theorem dropAllPaired_ne_nil (previous : Option UInt8) {segments : List Segment}
    (h : segments ≠ []) : dropAllPaired previous segments ≠ [] := by
  cases segments with
  | nil => exact absurd rfl h
  | cons segment rest => simp [dropAllPaired]

/-! ### Results of segments -/

/-- The first terminator ends a line. -/
theorem results_prepend_line {line after : Bytes} {terminator : UInt8}
    (hl : ∀ b ∈ line, isTerminator b = false) (ht : isTerminator terminator) (segment : Segment) :
    results (prepend (line ++ terminator :: after) segment) =
      .line (Utf8.decodeLossy line) :: results (prepend after segment) := by
  have hne := List.splitOnP_ne_nil isTerminator (after ++ segment.bytes)
  obtain ⟨piece, more, hp⟩ := List.exists_cons_of_ne_nil hne
  have hsplit : (line ++ terminator :: (after ++ segment.bytes)).splitOnP isTerminator =
      line :: (after ++ segment.bytes).splitOnP isTerminator :=
    List.splitOnP_append_cons_of_forall_mem hl terminator ht _
  simp [results, prepend, hsplit, hp]

/-- Without a terminator there is only the result at the end. -/
theorem results_of_forall {segment : Segment} (h : ∀ b ∈ segment.bytes, isTerminator b = false) :
    segment.results = [lastResult segment.bytes segment.ending] := by
  simp [results, List.splitOnP_eq_singleton h]

/-! ### Bytes of a line that are held -/

/-- The results of some deliveries when bytes of a line are held already; `previous` is the byte
that was delivered last. -/
def pending (held : Bytes) (previous : Option UInt8) (deliveries : List Delivery) :
    List LineResult :=
  ((dropAllPaired previous (ofDeliveries deliveries)).modifyHead
    (prepend held)).flatMap results

/-- With no bytes gathered, what is pending is what is due. -/
theorem pending_nil (previous : Option UInt8) (deliveries : List Delivery) :
    pending [] previous deliveries = allResults previous deliveries := by
  unfold pending allResults
  cases dropAllPaired previous (ofDeliveries deliveries) with
  | nil => rfl
  | cons segment rest => rfl

/-- At a segment without bytes, the bytes held are all there is. -/
theorem pending_of_end {held : Bytes} {previous : Option UInt8} {deliveries : List Delivery}
    (ending : SegmentEnd) (rest : List Delivery) (hh : ∀ b ∈ held, isTerminator b = false)
    (hd : ofDeliveries deliveries = ⟨[], ending⟩ :: ofDeliveries rest) :
    pending held previous deliveries = lastResult held ending :: pending [] previous rest := by
  have hheld : prepend held ⟨[], ending⟩ = ⟨held, ending⟩ := by simp [prepend]
  rw [pending_nil, pending, allResults, hd]
  simp only [dropAllPaired, dropPaired, List.getLast?_nil, Option.none_or, List.modifyHead_cons,
    List.flatMap_cons, hheld]
  rw [results_of_forall hh, List.singleton_append]

/-- The bytes of a chunk join those that are held. -/
theorem pending_chunk {held bytes : Bytes} {previous : Option UInt8} {rest : List Delivery}
    (hb : bytes ≠ []) :
    pending held previous (.chunk bytes :: rest) =
      pending (held ++ dropPaired previous bytes) (bytes.getLast?.or previous) rest := by
  have hp : prepend held ∘ prepend (dropPaired previous bytes) =
      prepend (held ++ dropPaired previous bytes) := by
    funext segment
    rw [Function.comp_apply, prepend_prepend]
  rw [pending, ofDeliveries, if_neg hb, dropAllPaired_prepend, List.modifyHead_modifyHead,
    hp, pending]

/-- The first terminator among the bytes that are held gives a line. -/
theorem pending_line {line after : Bytes} {terminator : UInt8} (previous : Option UInt8)
    (deliveries : List Delivery) (hl : ∀ b ∈ line, isTerminator b = false)
    (ht : isTerminator terminator) :
    pending (line ++ terminator :: after) previous deliveries =
      .line (Utf8.decodeLossy line) :: pending after previous deliveries := by
  have hne := dropAllPaired_ne_nil previous (ofDeliveries_ne_nil deliveries)
  obtain ⟨segment, more, hs⟩ := List.exists_cons_of_ne_nil hne
  simp only [pending, hs, List.modifyHead_cons, List.flatMap_cons]
  rw [results_prepend_line hl ht, List.cons_append]

end Segment

end LaunchOptions

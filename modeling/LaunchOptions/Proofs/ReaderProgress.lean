import LaunchOptions.Proofs.LineReader

/-!
# Progress of a reader

A call for a line takes turns. A turn that does not end the call leaves less to come, so every call
ends, and it ends with the result of `LineSource.next`. A call uses up a byte, a report of an end of
file or a failure, or there is nothing left to come: after so many calls and one more, there is an
end of file for ever.
-/

namespace LaunchOptions

/-- The bytes that are handed out. -/
def Delivery.bytes : Delivery → Bytes
  | .chunk bytes => bytes
  | .interrupted | .broken => []

/-- A reader of lines: the bytes of a line that it holds, and the source that it reads from. What is
left of a chunk is the first chunk of the source. -/
structure LineReader where
  held : Bytes
  source : LineSource
  deriving DecidableEq, Repr

/-- What a turn of a call comes to. -/
inductive Turn where
  /-- The call is not over. -/
  | goesOn (reader : LineReader)
  /-- The call is over. -/
  | ends (result : LineResult) (reader : LineReader)
  deriving DecidableEq, Repr

/-! ### Results to come -/

namespace LineSource

/-- The bytes, the reports of an end of file and the failures that are to come, counted together. -/
def callLimit (deliveries : List Delivery) : Nat :=
  (deliveries.flatMap Delivery.bytes).length + deliveries.count (.chunk []) +
    deliveries.count .broken

/-- Nothing is due where nothing is delivered. -/
@[simp]
theorem callLimit_nil : callLimit [] = 0 := rfl

/-- An interruption costs no call. -/
@[simp]
theorem callLimit_interrupted (rest : List Delivery) :
    callLimit (.interrupted :: rest) = callLimit rest := by
  simp [callLimit, Delivery.bytes]

/-- A broken read costs one call. -/
@[simp]
theorem callLimit_broken (rest : List Delivery) :
    callLimit (.broken :: rest) = callLimit rest + 1 := by
  simp [callLimit, Delivery.bytes, Nat.add_assoc]

/-- A report of the end of file costs one call. -/
@[simp]
theorem callLimit_endOfFile (rest : List Delivery) :
    callLimit (.chunk [] :: rest) = callLimit rest + 1 := by
  simp [callLimit, Delivery.bytes]
  omega

/-- Each byte of a chunk counts. -/
@[simp]
theorem callLimit_cons (b : UInt8) (bytes : Bytes) (rest : List Delivery) :
    callLimit (.chunk (b :: bytes) :: rest) = (b :: bytes).length + callLimit rest := by
  simp [callLimit, Delivery.bytes]
  omega

/-- Each unread byte counts for one call. -/
@[simp]
theorem callLimit_unread (bytes : Bytes) (rest : List Delivery) :
    callLimit (unread bytes rest) = bytes.length + callLimit rest := by
  cases bytes with
  | nil => simp [unread]
  | cons b more => exact callLimit_cons b more rest

/-- A chunk that is used up leaves no delivery. -/
theorem weight_unread_le (bytes : Bytes) (rest : List Delivery) (afterReturn : Bool) :
    weight ⟨unread bytes rest, afterReturn⟩ ≤ weight ⟨.chunk bytes :: rest, afterReturn⟩ := by
  cases bytes with
  | nil => simp [unread, weight]
  | cons b more => simp [unread]

/-- A line feed that belongs to the line before might as well not be there. -/
theorem nextFrom_lineFeed (held bytes : Bytes) (rest : List Delivery) :
    nextFrom held true (.chunk (lineFeed :: bytes) :: rest) =
      nextFrom held false (unread bytes rest) := by
  cases bytes with
  | nil => simp [nextFrom, dropLineFeed, cut?, unread]
  | cons b more => simp [nextFrom, dropLineFeed, unread]

private theorem nextFrom_chunk {afterReturn : Bool} {b : UInt8} (held bytes : Bytes)
    (rest : List Delivery)
    (h : ¬ (afterReturn ∧ b = lineFeed)) :
    nextFrom held afterReturn (.chunk (b :: bytes) :: rest) =
      match cut? (b :: bytes) with
      | some (line, terminator, after) =>
        (.line (Utf8.decodeLossy (held ++ line)),
          ⟨unread after rest, terminator == carriageReturn⟩)
      | none => nextFrom (held ++ b :: bytes) false rest := by
  have hdrop : (if afterReturn then dropLineFeed (b :: bytes) else b :: bytes) = b :: bytes := by
    cases afterReturn <;> simp_all [dropLineFeed]
  rw [nextFrom, hdrop]
  rfl

end LineSource

namespace LineReader

open LineSource

/-- One look at the next delivery. A line feed that belongs to the line before takes a turn of its
own. -/
def turn : LineReader → Turn
  | ⟨held, ⟨[], afterReturn⟩⟩ => .ends (lastLine held) ⟨held, ⟨[], afterReturn⟩⟩
  | ⟨held, ⟨.interrupted :: rest, afterReturn⟩⟩ => .goesOn ⟨held, ⟨rest, afterReturn⟩⟩
  | ⟨held, ⟨.broken :: rest, afterReturn⟩⟩ => .ends .failed ⟨held, ⟨rest, afterReturn⟩⟩
  | ⟨held, ⟨.chunk [] :: rest, afterReturn⟩⟩ => .ends (lastLine held) ⟨held, ⟨rest, afterReturn⟩⟩
  | ⟨held, ⟨.chunk (b :: bytes) :: rest, afterReturn⟩⟩ =>
    if afterReturn ∧ b = lineFeed then .goesOn ⟨held, ⟨unread bytes rest, false⟩⟩
    else
      match cut? (b :: bytes) with
      | some (line, terminator, after) =>
        .ends (.line (Utf8.decodeLossy (held ++ line)))
          ⟨held ++ line, ⟨unread after rest, terminator == carriageReturn⟩⟩
      | none => .goesOn ⟨held ++ b :: bytes, ⟨rest, false⟩⟩

/-- Some turns, one after another, up to the end of the call. -/
def turns : Nat → LineReader → Turn
  | 0, reader => .goesOn reader
  | n + 1, reader =>
    match reader.turn with
    | .goesOn later => turns n later
    | .ends result later => .ends result later

/-- A call begins with nothing held, whatever an earlier call has left. -/
def clear (reader : LineReader) : LineReader := { reader with held := [] }

/-- What a call that has come so far gives in the end. -/
def answer (reader : LineReader) : LineResult × LineSource :=
  nextFrom reader.held reader.source.afterReturn reader.source.deliveries

private theorem answer_clear (reader : LineReader) : reader.clear.answer = reader.source.next := rfl

/-! ### Turns -/

/-- What `n` turns of a call may come to. The call gives what it was to give. If it is not over,
then each turn has left less to come, and either a result to come is used up or what is held is as
before. If it is over, then either a result to come is used up or what was held is given and nothing
is left to come. -/
inductive Advances (n : Nat) (reader : LineReader) : Turn → Prop where
  | goesOn {later : LineReader} (answer : later.answer = reader.answer)
    (weight : later.source.weight + n ≤ reader.source.weight)
    (limit : callLimit later.source.deliveries < callLimit reader.source.deliveries ∨
      later.held = reader.held ∧
        callLimit later.source.deliveries = callLimit reader.source.deliveries) :
    Advances n reader (.goesOn later)
  | ends {result : LineResult} {later : LineReader}
    (answer : reader.answer = (result, later.source))
    (limit : callLimit later.source.deliveries < callLimit reader.source.deliveries ∨
      result = lastLine reader.held ∧ later.source.deliveries = []) :
    Advances n reader (.ends result later)

/-- A turn advances the reader. -/
theorem advances_turn (reader : LineReader) : Advances 1 reader reader.turn := by
  fun_cases turn reader with
  | case1 held afterReturn => exact .ends rfl (.inr ⟨rfl, rfl⟩)
  | case2 held rest afterReturn =>
    refine .goesOn rfl ?_ (.inr ⟨rfl, (callLimit_interrupted rest).symm⟩)
    simp only [weight, Delivery.weight, List.foldr_cons]
    omega
  | case3 held rest afterReturn => exact .ends rfl (.inl (by simp))
  | case4 held rest afterReturn => exact .ends rfl (.inl (by simp))
  | case5 held b bytes rest afterReturn hpaired =>
    obtain ⟨rfl, rfl⟩ := hpaired
    refine .goesOn (nextFrom_lineFeed held bytes rest).symm ?_ (.inl ?_)
    · have hunread := weight_unread_le bytes rest false
      simp only [weight, Delivery.weight, List.foldr_cons, List.length_cons] at hunread ⊢
      omega
    · rw [callLimit_unread, callLimit_cons, List.length_cons]
      omega
  | case6 held b bytes rest afterReturn hpaired line terminator after hc =>
    refine .ends ?_ (.inl ?_)
    · rw [answer, nextFrom_chunk held bytes rest hpaired, hc]
    · have hlength := congrArg List.length (cut?_eq_some hc).1
      rw [callLimit_unread, callLimit_cons, hlength, List.length_append, List.length_cons]
      omega
  | case7 held b bytes rest afterReturn hpaired hc =>
    refine .goesOn ?_ ?_ (.inl ?_)
    · rw [answer, answer, nextFrom_chunk held bytes rest hpaired, hc]
    · simp only [weight, Delivery.weight, List.foldr_cons]
      omega
    · simp only [callLimit_cons, List.length_cons]
      omega

/-- A turn comes before others. -/
theorem Advances.trans {n : Nat} {reader later : LineReader} {turn : Turn}
    (h : Advances 1 reader (.goesOn later)) (h' : Advances n later turn) :
    Advances (n + 1) reader turn := by
  cases h with
  | goesOn hanswer hweight hlimit =>
    cases h' with
    | goesOn hanswer' hweight' hlimit' =>
      refine .goesOn (hanswer'.trans hanswer) (by omega) ?_
      rcases hlimit with hlt | ⟨hheld, heq⟩
      · exact .inl (by omega)
      · rwa [hheld, heq] at hlimit'
    | ends hanswer' hlimit' =>
      refine .ends (hanswer ▸ hanswer') ?_
      rcases hlimit with hlt | ⟨hheld, heq⟩
      · -- What is held may be more than before, but it is more by what is used up.
        rcases hlimit' with hlt' | ⟨-, hnil⟩
        · exact .inl (Nat.lt_trans hlt' hlt)
        · rw [hnil, callLimit_nil]
          exact .inl (Nat.zero_lt_of_lt hlt)
      · rwa [hheld, heq] at hlimit'

/-- Turns advance the reader by their number. -/
theorem advances_turns (n : Nat) (reader : LineReader) : Advances n reader (turns n reader) := by
  induction n generalizing reader with
  | zero => exact .goesOn rfl (Nat.le_refl _) (.inr ⟨rfl, rfl⟩)
  | succ n ih =>
    have hturn := advances_turn reader
    rw [turns]
    cases h : reader.turn with
    | goesOn later =>
      rw [h] at hturn
      exact hturn.trans (ih later)
    | ends result later =>
      rw [h] at hturn
      cases hturn with
      | ends hanswer hlimit => exact .ends hanswer hlimit

/-- A call is over after one turn more than the source weighs. -/
theorem exists_turns_eq_ends (reader : LineReader) :
    ∃ held, turns (reader.source.weight + 1) reader =
      .ends reader.answer.1 ⟨held, reader.answer.2⟩ := by
  have hadvances := advances_turns (reader.source.weight + 1) reader
  cases h : turns (reader.source.weight + 1) reader with
  | goesOn later =>
    rw [h] at hadvances
    cases hadvances with
    | goesOn _ hweight _ => omega
  | ends result later =>
    rw [h] at hadvances
    cases hadvances with
    | ends hanswer _ => exact ⟨later.held, by rw [hanswer]⟩

end LineReader

/-! ### Call after call -/

namespace LineSource

/-- A call uses up a result to come, or there is nothing left to come and nothing to give. -/
theorem callLimit_next (source : LineSource) :
    callLimit source.next.2.deliveries < callLimit source.deliveries ∨
      source.next.1 = .atEnd ∧ source.next.2.deliveries = [] := by
  obtain ⟨held, hends⟩ := LineReader.exists_turns_eq_ends ⟨[], source⟩
  have hadvances := LineReader.advances_turns (source.weight + 1) ⟨[], source⟩
  rw [hends] at hadvances
  cases hadvances with
  | ends _ hlimit => exact hlimit

/-- Each result uses up something that is to come, but for the last one. -/
theorem length_results_le (source : LineSource) :
    source.results.length ≤ callLimit source.deliveries + 1 := by
  fun_induction results source with
  | case1 source _ => exact Nat.le_add_left 1 _
  | case2 source _ _ => exact Nat.le_add_left 1 _
  | case3 source _ hnot ih =>
    rcases callLimit_next source with hlt | hfinal
    · rw [List.length_cons]
      omega
    · exact absurd hfinal hnot

end LineSource

/-- Every call ends, and what it gives does not depend on what the reader holds: it is what the
source gives. Before the first call that reports an end of file and leaves nothing to come, there
are no more calls than bytes, reports of an end of file and failures to come; and from that call on,
every call reports an end of file. -/
theorem LineReader.reading_ends (reader : LineReader) :
    (∃ n ≤ reader.source.weight + 1, ∃ held,
      turns n reader.clear = .ends reader.source.next.1 ⟨held, reader.source.next.2⟩) ∧
    ∃ k ≤ LineSource.callLimit reader.source.deliveries,
      reader.source.IsFinal k ∧ (∀ i < k, ¬ reader.source.IsFinal i) ∧
        ∀ n, k ≤ n → reader.source.call n = .atEnd := by
  obtain ⟨held, hturns⟩ := exists_turns_eq_ends reader.clear
  rw [answer_clear] at hturns
  refine ⟨⟨reader.source.weight + 1, Nat.le_refl _, held, hturns⟩, ?_⟩
  obtain ⟨k, hfinal, hfirst, hresults⟩ := LineSource.exists_results_eq reader.source
  have hlength := LineSource.length_results_le reader.source
  rw [hresults, List.length_map, List.length_range] at hlength
  exact ⟨k, Nat.le_of_succ_le_succ hlength, hfinal, hfirst, fun n hn ↦ hfinal.call_eq_atEnd hn⟩

/-- A line, a report of an end of file, a failure and the end: the limit is reached. -/
example :
    (LineSource.results ⟨[.chunk [10], .chunk [], .interrupted, .broken], false⟩).length =
      LineSource.callLimit [.chunk [10], .chunk [], .interrupted, .broken] + 1 := by
  cbv

end LaunchOptions

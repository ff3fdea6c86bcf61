import LaunchOptions.Proofs.Segments

/-!
# Lines of any source

Asking a source for lines gives the results of its segments. One call gives the first result and
leaves a source for the others; the flag that it keeps says whether the byte delivered last is a
carriage return.
-/

namespace LaunchOptions

namespace LineSource

open Segment (dropPaired pending pending_nil pending_chunk pending_line pending_of_end lastResult
  allResults)

/-- The first terminator, with the bytes around it. -/
theorem cut?_eq_some {bytes line after : Bytes} {terminator : UInt8}
    (h : cut? bytes = some (line, terminator, after)) :
    bytes = line ++ terminator :: after ∧ (∀ b ∈ line, isTerminator b = false) ∧
      isTerminator terminator := by
  induction bytes generalizing line with
  | nil => cases h
  | cons b rest ih =>
    simp only [cut?] at h
    split at h
    · next hb =>
      cases h
      exact ⟨rfl, by simp, hb⟩
    · next hb =>
      obtain ⟨⟨l, t, a⟩, hc, he⟩ := Option.map_eq_some_iff.mp h
      cases he
      obtain ⟨hr, hl, ht⟩ := ih hc
      refine ⟨by rw [hr, List.cons_append], ?_, ht⟩
      intro x hx
      rcases List.mem_cons.mp hx with rfl | hx
      · simpa using hb
      · exact hl x hx

/-- Bytes without a terminator are not cut. -/
theorem cut?_eq_none {bytes : Bytes} (h : cut? bytes = none) :
    ∀ b ∈ bytes, isTerminator b = false := by
  induction bytes with
  | nil => simp
  | cons b rest ih =>
    simp only [cut?] at h
    split at h
    · cases h
    · next hb =>
      intro x hx
      rcases List.mem_cons.mp hx with rfl | hx
      · simpa using hb
      · exact ih (Option.map_eq_none_iff.mp h) x hx

/-- Some bytes end as they do without a line feed at their beginning, unless that is all of them. -/
theorem exists_append_dropLineFeed (bytes : Bytes) :
    ∃ before, bytes = before ++ dropLineFeed bytes ∧ (before = [] ∨ before = [lineFeed]) := by
  cases bytes with
  | nil => exact ⟨[], rfl, .inl rfl⟩
  | cons b rest =>
    by_cases hb : b = lineFeed
    · exact ⟨[lineFeed], by simp [dropLineFeed, hb], .inr rfl⟩
    · exact ⟨[], by simp [dropLineFeed, hb], .inl rfl⟩

/-! ### One call -/

private theorem lastLine_eq_lastResult (held : Bytes) :
    lastLine held = lastResult held .endOfFile := by
  simp [lastLine, lastResult]

/-- The bytes of a chunk that are not used yet are those of a chunk. -/
theorem pending_unread (previous : Option UInt8) (bytes : Bytes) (rest : List Delivery) :
    pending [] previous (unread bytes rest) =
      pending (dropPaired previous bytes) (bytes.getLast?.or previous) rest := by
  unfold unread
  cases bytes with
  | nil => rfl
  | cons b more =>
    simp only [List.isEmpty_cons, Bool.false_eq_true, if_false]
    rw [pending_chunk (by simp), List.nil_append]

/-- What a call is to do: give the first of the results that are due, and leave a source that the
others are due from. `previous` is the byte delivered last. Only at the end of the last delivery
does it happen that nothing else is due. -/
def Gives (due : List LineResult) (call : LineResult × LineSource) : Prop :=
  ∃ previous : Option UInt8,
    call.2.afterReturn = (previous == some carriageReturn) ∧
      (due = call.1 :: pending [] previous call.2.deliveries ∨
        due = [call.1] ∧ call.2.deliveries = [])

/-- A chunk in which a line ends. -/
private theorem gives_of_cut? {held bytes line after : Bytes} {terminator : UInt8}
    {previous : Option UInt8} {rest : List Delivery} (hh : ∀ b ∈ held, isTerminator b = false)
    (hb : bytes ≠ [])
    (hc : cut? (if previous == some carriageReturn then dropLineFeed bytes else bytes) =
      some (line, terminator, after)) :
    Gives (pending held previous (.chunk bytes :: rest))
      (.line (Utf8.decodeLossy (held ++ line)),
        ⟨unread after rest, terminator == carriageReturn⟩) := by
  obtain ⟨hbytes, hl, ht⟩ := cut?_eq_some hc
  have hfree : ∀ b ∈ held ++ line, isTerminator b = false :=
    List.forall_mem_append.mpr ⟨hh, hl⟩
  have hlast : bytes.getLast?.or previous = after.getLast?.or (some terminator) := by
    have hend : ∃ before, bytes = before ++ terminator :: after := by
      obtain ⟨before, hbefore, -⟩ := exists_append_dropLineFeed bytes
      split at hbytes
      · exact ⟨before ++ line, by rw [List.append_assoc, ← hbytes, ← hbefore]⟩
      · exact ⟨line, hbytes⟩
    obtain ⟨before, rfl⟩ := hend
    cases h : after.getLast? <;> simp [List.getLast?_append, List.getLast?_cons, h]
  refine ⟨some terminator, by simp, .inl ?_⟩
  rw [pending_chunk hb, Segment.dropPaired_eq_dropLineFeed, hbytes,
    Segment.dropPaired_line hl (by simp), ← List.append_assoc, pending_line _ _ hfree ht, hlast,
    pending_unread]

/-- A chunk in which no line ends does not end with a carriage return. -/
private theorem getLast?_ne_carriageReturn {bytes : Bytes} {previous : Option UInt8}
    (hb : bytes ≠ [])
    (hfree : ∀ b ∈ (if previous == some carriageReturn then dropLineFeed bytes else bytes),
      isTerminator b = false) :
    (bytes.getLast?.or previous == some carriageReturn) = false := by
  have hlast := List.getLast?_eq_some_getLast hb
  rw [hlast, Option.some_or, beq_eq_false_iff_ne, ne_eq, Option.some.injEq]
  intro hreturn
  have hmem : carriageReturn ∈ bytes := hreturn ▸ List.getLast_mem hb
  have hdrop : carriageReturn ∈ dropLineFeed bytes := by
    obtain ⟨before, hbefore, hcases⟩ := exists_append_dropLineFeed bytes
    rw [hbefore] at hmem
    rcases List.mem_append.mp hmem with hmem | hmem
    · rcases hcases with rfl | rfl
      · cases hmem
      · exact absurd (List.mem_singleton.mp hmem) (by decide)
    · exact hmem
  have hterminator : isTerminator carriageReturn = false := by
    apply hfree
    split
    · exact hdrop
    · exact hmem
  exact absurd hterminator (by decide)

/-- One call gives the first result that is due. -/
theorem gives_nextFrom (held : Bytes) (previous : Option UInt8) (deliveries : List Delivery)
    (hh : ∀ b ∈ held, isTerminator b = false) :
    Gives (pending held previous deliveries)
      (nextFrom held (previous == some carriageReturn) deliveries) := by
  -- The bytes held grow with each chunk in which no line ends, so they are general.
  induction deliveries generalizing held previous with
  | nil =>
    refine ⟨previous, rfl, .inr ⟨?_, rfl⟩⟩
    have hresults : Segment.results ⟨held, .endOfFile⟩ = [lastResult held .endOfFile] :=
      Segment.results_of_forall hh
    rw [nextFrom, lastLine_eq_lastResult]
    simp [pending, Segment.ofDeliveries, Segment.dropAllPaired, Segment.prepend, dropPaired,
      hresults]
  | cons d rest ih =>
    cases d with
    | interrupted => exact ih held previous hh
    | broken => exact ⟨previous, rfl, .inl (pending_of_end .failure rest hh rfl)⟩
    | chunk bytes =>
      by_cases hb : bytes = []
      · subst hb
        refine ⟨previous, rfl, .inl ?_⟩
        rw [pending_of_end .endOfFile rest hh (by simp [Segment.ofDeliveries]),
          ← lastLine_eq_lastResult]
        rfl
      · have hempty : bytes.isEmpty = false := by simpa using hb
        rw [nextFrom, hempty]
        simp only [Bool.false_eq_true, if_false]
        split
        · next line terminator after hc => exact gives_of_cut? hh hb hc
        · next hc =>
          have hfree := cut?_eq_none hc
          have hreturn := getLast?_ne_carriageReturn hb hfree
          have hjoined : ∀ b ∈ held ++ (if previous == some carriageReturn then dropLineFeed bytes
              else bytes), isTerminator b = false :=
            List.forall_mem_append.mpr ⟨hh, hfree⟩
          have hstep := ih _ (bytes.getLast?.or previous) hjoined
          rw [hreturn] at hstep
          rw [pending_chunk hb, Segment.dropPaired_eq_dropLineFeed,
            Segment.dropPaired_of_forall none hfree]
          exact hstep

/-! ### Call after call -/

/-- The source that some calls leave. -/
def afterCalls (source : LineSource) : Nat → LineSource
  | 0 => source
  | n + 1 => source.next.2.afterCalls n

/-- The result of the call that comes after `n` others. -/
def call (source : LineSource) (n : Nat) : LineResult := (source.afterCalls n).next.1

/-- One of the results that are due; after them there is an end of file for ever. -/
def nthResult (due : List LineResult) (n : Nat) : LineResult := due[n]?.getD .atEnd

/-- The call after `n` others reports an end of file and leaves nothing to come. -/
def IsFinal (source : LineSource) (n : Nat) : Prop :=
  source.call n = .atEnd ∧ (source.afterCalls (n + 1)).deliveries = []

/-- Calls go on where those before them stopped. -/
theorem afterCalls_add (source : LineSource) (m n : Nat) :
    source.afterCalls (m + n) = (source.afterCalls m).afterCalls n := by
  induction m generalizing source with
  | zero => rw [Nat.zero_add, afterCalls]
  | succ m ih => rw [Nat.succ_add, afterCalls, afterCalls, ih]

/-- With nothing to come, every call reports an end of file. -/
theorem call_of_deliveries_nil {source : LineSource} (h : source.deliveries = []) (n : Nat) :
    source.call n = .atEnd := by
  have hnext := next_of_deliveries_nil h
  induction n with
  | zero => rw [call, afterCalls, hnext]
  | succ n ih => rw [call, afterCalls, hnext, ← call, ih]

/-- A call gives the first result that is due, whatever byte was delivered last. -/
theorem gives_next {source : LineSource} {previous : Option UInt8}
    (h : source.afterReturn = (previous == some carriageReturn)) :
    Gives (allResults previous source.deliveries) source.next := by
  rw [← pending_nil, next, h]
  exact gives_nextFrom [] previous source.deliveries (by simp)

/-- Every call gives the next result that is due. -/
theorem call_eq_nthResult {source : LineSource} {previous : Option UInt8}
    (h : source.afterReturn = (previous == some carriageReturn)) (n : Nat) :
    source.call n = nthResult (allResults previous source.deliveries) n := by
  induction n generalizing source previous with
  | zero =>
    obtain ⟨_, -, hdue⟩ := gives_next h
    rcases hdue with hdue | ⟨hdue, -⟩ <;> rw [hdue] <;> rfl
  | succ n ih =>
    obtain ⟨previous', hflag, hdue⟩ := gives_next h
    have hcall : source.call (n + 1) = source.next.2.call n := rfl
    rcases hdue with hdue | ⟨hdue, hend⟩
    · rw [hcall, ih hflag, hdue, pending_nil]
      rfl
    · rw [hcall, call_of_deliveries_nil hend, hdue]
      rfl

/-- The results that are collected are those of the calls up to the first final one. -/
theorem exists_results_eq (source : LineSource) :
    ∃ k, source.IsFinal k ∧ (∀ i < k, ¬ source.IsFinal i) ∧
      source.results = (List.range (k + 1)).map source.call := by
  fun_induction results source with
  | case1 source h =>
    have hnext := next_of_deliveries_nil h
    refine ⟨0, ⟨?_, ?_⟩, by simp, rfl⟩
    · rw [call, afterCalls, hnext]
    · rw [afterCalls, afterCalls, hnext, h]
  | case2 source _ h => exact ⟨0, h, by simp, congrArg (fun r ↦ [r]) h.1.symm⟩
  | case3 source _ h ih =>
    obtain ⟨k, hfinal, hfirst, hresults⟩ := ih
    refine ⟨k + 1, hfinal, ?_, ?_⟩
    · intro i hi
      cases i with
      | zero => exact h
      | succ i => exact hfirst i (Nat.lt_of_succ_lt_succ hi)
    · have hrange : List.range (k + 1 + 1) = 0 :: (List.range (k + 1)).map Nat.succ :=
        List.range_succ_eq_map
      rw [hresults, hrange, List.map_cons, List.map_map]
      rfl

private theorem results_of_deliveries_nil {source : LineSource} (h : source.deliveries = []) :
    source.results = [.atEnd] := by
  rw [results, if_pos h, next_of_deliveries_nil h]

/-- The results that are collected are those that are due, give or take an end of file at the
end. -/
theorem results_eq_allResults {source : LineSource} {previous : Option UInt8}
    (h : source.afterReturn = (previous == some carriageReturn)) :
    source.results = allResults previous source.deliveries ∨
      source.results = allResults previous source.deliveries ++ [.atEnd] ∨
      allResults previous source.deliveries = source.results ++ [.atEnd] := by
  fun_induction results source generalizing previous with
  | case1 source hnil =>
    rw [hnil, next_of_deliveries_nil hnil]
    exact .inl rfl
  | case2 source _ hfinal =>
    obtain ⟨hend, hnil⟩ := hfinal
    obtain ⟨previous', -, hdue⟩ := gives_next h
    rw [hend, hnil] at hdue
    rcases hdue with hdue | ⟨hdue, -⟩
    · exact .inr (.inr hdue)
    · exact .inl hdue.symm
  | case3 source _ _ ih =>
    obtain ⟨previous', hflag, hdue⟩ := gives_next h
    rcases hdue with hdue | ⟨hdue, hnil⟩
    · rw [hdue, pending_nil]
      simpa only [List.cons_append, List.cons.injEq, true_and] using ih hflag
    · rw [hdue, results_of_deliveries_nil hnil]
      exact .inr (.inl rfl)

/-- After a final call, every call reports an end of file. -/
theorem IsFinal.call_eq_atEnd {source : LineSource} {k n : Nat} (h : source.IsFinal k)
    (hn : k ≤ n) : source.call n = .atEnd := by
  rcases Nat.eq_or_lt_of_le hn with rfl | hlt
  · exact h.1
  · obtain ⟨m, rfl⟩ := Nat.exists_eq_add_of_lt hlt
    rw [call, Nat.add_right_comm, afterCalls_add]
    exact call_of_deliveries_nil h.2 m

/-- The results of the segments that some deliveries fall into without their interruptions. -/
def reference (deliveries : List Delivery) : List LineResult :=
  allResults none (deliveries.filter (· ≠ .interrupted))

/-- A fresh source gives the results of its segments, call after call, and an end of file for ever
after them. The results that are collected are those up to the first end of file with nothing to
come, so they are the results of the segments, give or take an end of file at the end. -/
theorem results_eq_reference (deliveries : List Delivery) :
    (∀ n, call ⟨deliveries, false⟩ n = nthResult (reference deliveries) n) ∧
      ∃ k, IsFinal ⟨deliveries, false⟩ k ∧ (∀ i < k, ¬ IsFinal ⟨deliveries, false⟩ i) ∧
        results ⟨deliveries, false⟩ =
          (List.range (k + 1)).map (nthResult (reference deliveries)) ∧
        (∀ n, k ≤ n → nthResult (reference deliveries) n = .atEnd) ∧
        (results ⟨deliveries, false⟩ = reference deliveries ∨
          results ⟨deliveries, false⟩ = reference deliveries ++ [.atEnd] ∨
          reference deliveries = results ⟨deliveries, false⟩ ++ [.atEnd]) := by
  have hflag : (⟨deliveries, false⟩ : LineSource).afterReturn =
      ((none : Option UInt8) == some carriageReturn) := rfl
  have hcall : call ⟨deliveries, false⟩ = nthResult (reference deliveries) := by
    funext n
    rw [reference, allResults, Segment.ofDeliveries_filter, call_eq_nthResult hflag]
    rfl
  refine ⟨congrFun hcall, ?_⟩
  obtain ⟨k, hfinal, hfirst, hresults⟩ := exists_results_eq ⟨deliveries, false⟩
  rw [hcall] at hresults
  refine ⟨k, hfinal, hfirst, hresults, ?_, ?_⟩
  · intro n hn
    rw [← hcall]
    exact hfinal.call_eq_atEnd hn
  · rw [reference, allResults, Segment.ofDeliveries_filter]
    exact results_eq_allResults hflag

example :
    results ⟨[.chunk [97, 13], .broken, .chunk [10, 98], .interrupted, .chunk []], false⟩ =
      [.line ['a'], .failed, .line ['b'], .atEnd] := by
  cbv

end LineSource

end LaunchOptions

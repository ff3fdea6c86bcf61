import LaunchOptions.Proofs.ContentLines

/-!
# Characters of decoded bytes

A character of ASCII other than the null character comes out of its own byte and out of nothing
else: neither the bytes of a longer character nor an ill-formed stretch decode to one. So a line has
no line break in it.
-/

namespace LaunchOptions

namespace Utf8

/-- The character that has been begun lies above ASCII, whatever its next bytes are. -/
def IsAboveAscii : State → Prop
  | .ground => True
  | .within owed low _ value => 2 ≤ 64 * value + low ∧ (owed = 0 → 2 ≤ value)

/-- The two things that a step yields are as they have to be for `c`: a character of ASCII is the
byte itself, and a character that is begun lies above ASCII. -/
private def YieldsOnly (b : Nat) (yielded : List Decoded × State) : Prop :=
  (∀ c : Char, some c ∈ yielded.1 → 0 < c.toNat → c.toNat < 0x80 → b = c.toNat) ∧
    IsAboveAscii yielded.2

private theorem toNat_of_pos {n : Nat} (h : 0 < (Char.ofNat n).toNat) :
    (Char.ofNat n).toNat = n := by
  unfold Char.ofNat at h ⊢
  by_cases hn : n.isValidChar
  · rw [dif_pos hn]
    rfl
  · rw [dif_neg hn] at h
    exact absurd h (by decide)

private theorem yieldsOnly_start (b : Nat) : YieldsOnly b (start b) := by
  unfold start
  split
  · refine ⟨?_, trivial⟩
    intro c hc hpos _
    obtain rfl : c = Char.ofNat b := by simpa using hc
    exact (toNat_of_pos hpos).symm
  · split
    · exact ⟨by simp, trivial⟩
    · split
      · exact ⟨by simp, by simp [IsAboveAscii]; omega⟩
      · split
        · refine ⟨by simp, ?_, by simp⟩
          split <;> omega
        · split
          · refine ⟨by simp, ?_, by simp⟩
            split <;> omega
          · exact ⟨by simp, trivial⟩

private theorem yieldsOnly_extend {b owed low high value payload : Nat}
    (h : IsAboveAscii (.within owed low high value)) (hp : low ≤ payload) :
    YieldsOnly b (extend owed value payload) := by
  obtain ⟨hlow, hvalue⟩ := h
  cases owed with
  | zero =>
    refine ⟨?_, trivial⟩
    intro c hc hpos hlt
    obtain rfl : c = Char.ofNat (64 * value + payload) := by simpa [extend] using hc
    have := toNat_of_pos hpos
    have := hvalue rfl
    omega
  | succ owed =>
    refine ⟨by simp [extend], ?_⟩
    simp only [extend, IsAboveAscii]
    omega

/-- A step keeps a character that is begun above ASCII, and yields no character of ASCII but its own
byte. -/
private theorem yieldsOnly_step {state : State} (h : IsAboveAscii state) (b : Nat) :
    YieldsOnly b (step state b) := by
  cases state with
  | ground => exact yieldsOnly_start b
  | within owed low high value =>
    simp only [step]
    split
    · next p hp =>
      have hlow : low ≤ p := by
        have := (Option.filter_eq_some_iff.mp hp).2
        simp at this
        exact this.1
      exact yieldsOnly_extend h hlow
    · obtain ⟨hc, hs⟩ := yieldsOnly_start b
      exact ⟨by simpa using hc, hs⟩

private theorem mem_of_mem_scanFrom {bytes : Bytes} {state : State} (h : IsAboveAscii state)
    {c : Char} (hc : some c ∈ scanFrom state bytes) (hpos : 0 < c.toNat) (hlt : c.toNat < 0x80) :
    ∃ b ∈ bytes, b.toNat = c.toNat := by
  induction bytes generalizing state with
  | nil => cases state <;> simp [scanFrom, finish] at hc
  | cons b rest ih =>
    obtain ⟨hfirst, hnext⟩ := yieldsOnly_step h b.toNat
    rcases List.mem_append.mp hc with hc | hc
    · exact ⟨b, by simp, hfirst c hc hpos hlt⟩
    · obtain ⟨x, hx, hxc⟩ := ih hnext hc
      exact ⟨x, by simp [hx], hxc⟩

/-- A character of ASCII in a decoded text is one of the bytes. -/
theorem mem_of_mem_decodeLossy {bytes : Bytes} {c : Char} (h : c ∈ decodeLossy bytes)
    (hpos : 0 < c.toNat) (hlt : c.toNat < 0x80) : ∃ b ∈ bytes, b.toNat = c.toNat := by
  obtain ⟨decoded, hd, rfl⟩ := List.mem_map.mp h
  cases decoded with
  | none => exact absurd hlt (by decide)
  | some c =>
    have hground : IsAboveAscii .ground := trivial
    exact mem_of_mem_scanFrom hground hd hpos hlt

end Utf8

/-- The characters that end lines. -/
def Text.lineBreaks : List Char := ['\n', '\r']

/-- A line break is a line feed or a carriage return. -/
theorem Text.mem_lineBreaks {c : Char} : c ∈ lineBreaks ↔ c = '\n' ∨ c = '\r' := by
  simp [lineBreaks]

/-- The pieces between separators hold none. -/
private theorem not_of_mem_splitOnP {p : UInt8 → Bool} {bytes piece : Bytes}
    (h : piece ∈ bytes.splitOnP p) : ∀ b ∈ piece, p b = false := by
  induction bytes generalizing piece with
  | nil =>
    obtain rfl : piece = [] := by simpa using h
    simp
  | cons b rest ih =>
    rw [List.splitOnP_cons_eq_if_modifyHead] at h
    split at h
    · rcases List.mem_cons.mp h with rfl | h
      · simp
      · exact ih h
    · next hb =>
      obtain ⟨first, more, hpieces⟩ := List.exists_cons_of_ne_nil (List.splitOnP_ne_nil p rest)
      rw [hpieces, List.modifyHead_cons] at h
      rcases List.mem_cons.mp h with rfl | h
      · intro x hx
        rcases List.mem_cons.mp hx with rfl | hx
        · simpa using hb
        · exact ih (by simp [hpieces]) x hx
      · exact ih (by simp [hpieces, h])

/-- The lines of a content are decoded from bytes without a terminator. -/
theorem exists_bytes_of_mem_contentLines {content : Bytes} {line : Text}
    (h : line ∈ contentLines content) :
    ∃ bytes, line = Utf8.decodeLossy bytes ∧ ∀ b ∈ bytes, LineSource.isTerminator b = false := by
  obtain ⟨bytes, hbytes, rfl⟩ := List.mem_map.mp h
  refine ⟨bytes, rfl, ?_⟩
  rcases List.mem_append.mp hbytes with hbytes | hbytes
  · exact not_of_mem_splitOnP (List.dropLast_subset _ hbytes)
  · split at hbytes
    · cases hbytes
    · next hne =>
      rw [List.mem_singleton.mp hbytes, List.getLastD_eq_getLast?]
      cases hlast : (List.splitOnP LineSource.isTerminator
          (Segment.dropPaired none content)).getLast? with
      | none => simp
      | some last => exact not_of_mem_splitOnP (List.mem_of_getLast? hlast)

/-- Bytes without a terminator decode to a text without a line break. -/
theorem not_mem_decodeLossy {bytes : Bytes} {c : Char}
    (h : ∀ b ∈ bytes, LineSource.isTerminator b = false) (hc : c ∈ Text.lineBreaks) :
    c ∉ Utf8.decodeLossy bytes := by
  intro hmem
  have hbreak : 0 < c.toNat ∧ c.toNat < 0x80 ∧ LineSource.isTerminator (UInt8.ofNat c.toNat) := by
    rcases Text.mem_lineBreaks.mp hc with rfl | rfl <;> decide
  obtain ⟨hpos, hlt, hterminator⟩ := hbreak
  obtain ⟨b, hb, hbc⟩ := Utf8.mem_of_mem_decodeLossy hmem hpos hlt
  rw [← hbc, UInt8.ofNat_toNat, h b hb] at hterminator
  cases hterminator

/-- No line of a content has a line break in it. -/
theorem not_mem_of_mem_contentLines {content : Bytes} {line : Text} {c : Char}
    (h : line ∈ contentLines content) (hc : c ∈ Text.lineBreaks) : c ∉ line := by
  obtain ⟨bytes, rfl, hbytes⟩ := exists_bytes_of_mem_contentLines h
  exact not_mem_decodeLossy hbytes hc

end LaunchOptions

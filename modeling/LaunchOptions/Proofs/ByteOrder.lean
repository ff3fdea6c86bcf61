import LaunchOptions.Proofs.CharacterEncoding
import Mathlib.Tactic.IntervalCases

/-!
# The order of encoded texts

The bytes of a character are a leading byte, which tells how many there are, and continuation bytes
of six bits each. A longer encoding has a greater leading byte, and of encodings of the same length
the greater character has the greater bytes. So texts are in the order of their bytes.
-/

namespace LaunchOptions.Utf8

open String (utf8EncodeChar)

/-- The continuation bytes that carry the last `6 * count` bits of a character. -/
def continuation : Nat → Nat → Bytes
  | 0, _ => []
  | count + 1, n => continuation count (n / 64) ++ [UInt8.ofNat (n % 64 + 0x80)]

/-- The mark of a leading byte before `count` continuation bytes. -/
def leadMark : Nat → Nat
  | 0 => 0
  | 1 => 0xC0
  | 2 => 0xE0
  | _ => 0xF0

/-- The least code point with `count` continuation bytes; none has four. -/
def leastCode : Nat → Nat
  | 0 => 0
  | 1 => 0x80
  | 2 => 0x800
  | 3 => 0x10000
  | _ => 0x110000

/-- The leading byte of a code point with `count` continuation bytes. -/
def lead (count n : Nat) : Nat := n / 64 ^ count + leadMark count

/-- A character has a leading byte and no continuation bytes or up to three. -/
theorem exists_utf8EncodeChar_eq (c : Char) : ∃ count < 4,
    (leastCode count ≤ c.toNat ∧ c.toNat < leastCode (count + 1)) ∧
      utf8EncodeChar c = UInt8.ofNat (lead count c.toNat) :: continuation count c.toNat := by
  have hvalid : c.toNat.isValidChar := c.valid
  have hc : utf8EncodeChar c = utf8EncodeChar (Char.ofNat c.toNat) := by rw [Char.ofNat_toNat]
  rw [hc]
  generalize c.toNat = n at hvalid
  have hmax : n < 0x110000 := by
    rcases hvalid with h | h
    · omega
    · exact h.2
  by_cases h1 : n < 0x80
  · refine ⟨0, by decide, ⟨Nat.zero_le n, h1⟩, ?_⟩
    rw [encodeChar_one h1]
    simp [lead, leadMark, continuation]
  by_cases h2 : n < 0x800
  · refine ⟨1, by decide, ⟨Nat.not_lt.mp h1, h2⟩, ?_⟩
    rw [encodeChar_two (Nat.not_lt.mp h1) h2]
    simp [lead, leadMark, continuation]
  by_cases h3 : n < 0x10000
  · refine ⟨2, by decide, ⟨Nat.not_lt.mp h2, h3⟩, ?_⟩
    rw [encodeChar_three (Nat.not_lt.mp h2) h3 hvalid]
    simp [lead, leadMark, continuation]
  · refine ⟨3, by decide, ⟨Nat.not_lt.mp h3, hmax⟩, ?_⟩
    rw [encodeChar_four (Nat.not_lt.mp h3) hmax]
    simp [lead, leadMark, continuation, Nat.div_div_eq_div_mul]

private theorem leastCode_le {count count' : Nat} (h : count ≤ count') (hcount : count' ≤ 4) :
    leastCode count ≤ leastCode count' := by
  interval_cases count' <;> interval_cases count <;> decide

private theorem leadMark_le {count count' : Nat} (h : count ≤ count') (hcount : count' < 4) :
    leadMark count ≤ leadMark count' := by
  interval_cases count' <;> interval_cases count <;> decide

/-- A leading byte is less than those that have more continuation bytes after them. -/
theorem lead_lt_leadMark {count n : Nat} (hcount : count < 3) (h : n < leastCode (count + 1)) :
    lead count n < leadMark (count + 1) := by
  interval_cases count <;> simp only [lead, leadMark, leastCode] at h ⊢ <;> omega

private theorem lead_lt {count n : Nat} (hcount : count < 4) (h : n < leastCode (count + 1)) :
    lead count n < 256 := by
  interval_cases count <;> simp only [lead, leadMark, leastCode] at h ⊢ <;> omega

/-! ### Comparing bytes -/

private theorem compare_append_left (before : Bytes) (s t : Bytes) :
    compare (before ++ s) (before ++ t) = compare s t := by
  induction before with
  | nil => rfl
  | cons b rest ih =>
    have hself : compare b b = .eq := Std.ReflCmp.compare_self
    rw [List.cons_append, List.cons_append, List.compare_cons_cons, hself, ih]
    rfl

private theorem compare_cons_of_lt {m n : Nat} (h : m < n) (hn : n < 256) (s t : Bytes) :
    compare (UInt8.ofNat m :: s) (UInt8.ofNat n :: t) = .lt := by
  have hlt : UInt8.ofNat m < UInt8.ofNat n := by
    rw [UInt8.lt_iff_toNat_lt, UInt8.toNat_ofNat_of_lt' (h.trans hn), UInt8.toNat_ofNat_of_lt' hn]
    exact h
  rw [List.compare_cons_cons, Std.compare_eq_lt.mpr hlt]
  rfl

/-- With the same leading bits, the greater code point has the greater continuation bytes. -/
theorem compare_continuation {count m n : Nat} (h : m < n) (hlead : m / 64 ^ count = n / 64 ^ count)
    (s t : Bytes) : compare (continuation count m ++ s) (continuation count n ++ t) = .lt := by
  induction count generalizing m n s t with
  | zero =>
    rw [Nat.pow_zero, Nat.div_one, Nat.div_one] at hlead
    omega
  | succ count ih =>
    simp only [continuation, List.append_assoc, List.cons_append, List.nil_append]
    rcases Nat.lt_or_eq_of_le (Nat.div_le_div_right (c := 64) h.le) with hlt | heq
    · refine ih hlt ?_ _ _
      rwa [Nat.div_div_eq_div_mul, Nat.div_div_eq_div_mul, ← Nat.pow_succ']
    · rw [heq, compare_append_left]
      exact compare_cons_of_lt (by omega) (by omega) _ _

/-- The greater character has the greater bytes, whatever follows. -/
theorem compare_utf8EncodeChar_append {c d : Char} (h : c < d) (s t : Bytes) :
    compare (utf8EncodeChar c ++ s) (utf8EncodeChar d ++ t) = .lt := by
  have hcd : c.toNat < d.toNat := h
  obtain ⟨count, hcount, ⟨hleast, hnext⟩, hc⟩ := exists_utf8EncodeChar_eq c
  obtain ⟨count', hcount', ⟨hleast', hnext'⟩, hd⟩ := exists_utf8EncodeChar_eq d
  rw [hc, hd, List.cons_append, List.cons_append]
  have hbyte := lead_lt hcount' hnext'
  rcases Nat.lt_trichotomy count count' with hlt | rfl | hgt
  · have hmark : leadMark (count + 1) ≤ leadMark count' := leadMark_le hlt hcount'
    have hfirst : lead count c.toNat < leadMark (count + 1) := lead_lt_leadMark (by omega) hnext
    have hsecond : leadMark count' ≤ lead count' d.toNat := Nat.le_add_left _ _
    exact compare_cons_of_lt (by omega) hbyte _ _
  · rcases Nat.lt_or_eq_of_le (Nat.div_le_div_right (c := 64 ^ count) hcd.le) with hlt | heq
    · exact compare_cons_of_lt (Nat.add_lt_add_right hlt _) hbyte _ _
    · rw [lead, lead, heq]
      exact (compare_append_left [_] _ _).trans (compare_continuation hcd heq s t)
  · have hcodes : leastCode (count' + 1) ≤ leastCode count := leastCode_le hgt (by omega)
    omega

/-- A character has some byte. -/
theorem utf8EncodeChar_eq_cons (c : Char) : ∃ b rest, utf8EncodeChar c = b :: rest := by
  obtain ⟨count, -, -, hc⟩ := exists_utf8EncodeChar_eq c
  exact ⟨_, _, hc⟩

private theorem encode_cons (c : Char) (t : Text) :
    encode (c :: t) = utf8EncodeChar c ++ encode t := rfl

/-- Texts are in the order of their bytes. -/
theorem compare_encode (t u : Text) : compare (encode t) (encode u) = compare t u := by
  induction t generalizing u with
  | nil =>
    cases u with
    | nil => rfl
    | cons d more =>
      obtain ⟨b, rest, hd⟩ := utf8EncodeChar_eq_cons d
      rw [encode_cons, hd]
      rfl
  | cons c rest ih =>
    cases u with
    | nil =>
      obtain ⟨b, rest, hc⟩ := utf8EncodeChar_eq_cons c
      rw [encode_cons, hc]
      rfl
    | cons d more =>
      rw [encode_cons, encode_cons, List.compare_cons_cons]
      cases hcd : compare c d with
      | lt => exact compare_utf8EncodeChar_append (compareOfLessAndEq_eq_lt.mp hcd) _ _
      | eq =>
        obtain rfl := Std.LawfulEqOrd.eq_of_compare hcd
        rw [compare_append_left, ih]
        rfl
      | gt =>
        have hdc : compare d c = .lt := Std.OrientedCmp.lt_of_gt hcd
        exact Std.OrientedCmp.gt_of_lt
          (compare_utf8EncodeChar_append (compareOfLessAndEq_eq_lt.mp hdc) _ _)

end LaunchOptions.Utf8

import LaunchOptions.Text.Utf8

/-!
# Bytes of a character

From the ground state the machine completes a character exactly with the bytes that encode it. The
two sides are compared for each length of an encoding.
-/

namespace LaunchOptions.Utf8

open String (utf8EncodeChar)

/-! ### Encodings by their length -/

private theorem toNat_val_ofNat {n : Nat} (h : n.isValidChar) : (Char.ofNat n).val.toNat = n := by
  rw [Char.ofNat, dif_pos h]
  rfl

private theorem toNat_ofNat_of_lt {n : Nat} (h : n < 256) : (UInt8.ofNat n).toNat = n :=
  UInt8.toNat_ofNat_of_lt' h

/-- The one byte of a character below U+0080. -/
theorem encodeChar_one {n : Nat} (h : n < 0x80) :
    utf8EncodeChar (Char.ofNat n) = [UInt8.ofNat n] := by
  have hn : n.isValidChar := .inl (by omega)
  rw [utf8EncodeChar, toNat_val_ofNat hn, if_pos (by omega)]

/-- The two bytes of a character below U+0800. -/
theorem encodeChar_two {n : Nat} (h : 0x80 ≤ n) (h' : n < 0x800) :
    utf8EncodeChar (Char.ofNat n) = [UInt8.ofNat (n / 64 + 0xC0), UInt8.ofNat (n % 64 + 0x80)] := by
  have hn : n.isValidChar := .inl (by omega)
  have hlead : n / 64 % 0x20 = n / 64 := Nat.mod_eq_of_lt (by omega)
  rw [utf8EncodeChar, toNat_val_ofNat hn, if_neg (by omega), if_pos (by omega), hlead]

/-- The three bytes of a character below U+10000. -/
theorem encodeChar_three {n : Nat} (h : 0x800 ≤ n) (h' : n < 0x10000)
    (hn : n.isValidChar) :
    utf8EncodeChar (Char.ofNat n) = [UInt8.ofNat (n / 4096 + 0xE0),
      UInt8.ofNat (n / 64 % 64 + 0x80), UInt8.ofNat (n % 64 + 0x80)] := by
  have hlead : n / 4096 % 0x10 = n / 4096 := Nat.mod_eq_of_lt (by omega)
  rw [utf8EncodeChar, toNat_val_ofNat hn, if_neg (by omega), if_neg (by omega), if_pos (by omega),
    hlead]

/-- The four bytes of any other character. -/
theorem encodeChar_four {n : Nat} (h : 0x10000 ≤ n) (h' : n < 0x110000) :
    utf8EncodeChar (Char.ofNat n) = [UInt8.ofNat (n / 262144 + 0xF0),
      UInt8.ofNat (n / 4096 % 64 + 0x80), UInt8.ofNat (n / 64 % 64 + 0x80),
      UInt8.ofNat (n % 64 + 0x80)] := by
  have hn : n.isValidChar := .inr (by omega)
  have hlead : n / 262144 % 0x08 = n / 262144 := Nat.mod_eq_of_lt (by omega)
  rw [utf8EncodeChar, toNat_val_ofNat hn, if_neg (by omega), if_neg (by omega), if_neg (by omega),
    hlead]

/-! ### Steps of the machine -/

/-- What the first byte of a character yields, by the length of the character. -/
inductive StartsAs (b : Nat) : List Decoded × State → Prop where
  | one (h : b < 0x80) : StartsAs b ([some (Char.ofNat b)], .ground)
  | two {v : Nat} (hb : b = v + 0xC0) (h : 2 ≤ v) (h' : v < 32) :
    StartsAs b ([], .within 0 0 0x3F v)
  | three {v : Nat} (hb : b = v + 0xE0) (h : v < 16) :
    StartsAs b ([], .within 1 (if v = 0 then 0x20 else 0) (if v = 13 then 0x1F else 0x3F) v)
  | four {v : Nat} (hb : b = v + 0xF0) (h : v < 5) :
    StartsAs b ([], .within 2 (if v = 0 then 0x10 else 0) (if v = 4 then 0x0F else 0x3F) v)
  | none (h : 0x80 ≤ b ∧ b < 0xC2 ∨ 0xF5 ≤ b) : StartsAs b ([none], .ground)

/-- These are all the ways to start. -/
theorem startsAs_iff {b : Nat} {yielded : List Decoded × State} :
    StartsAs b yielded ↔ start b = yielded := by
  constructor
  · intro h
    unfold start
    cases h with
    | one h => rw [if_pos h]
    | two hb h h' =>
      subst hb
      rw [if_neg (by omega), if_neg (by omega), if_pos (by omega), Nat.add_sub_cancel]
    | three hb h =>
      subst hb
      rw [if_neg (by omega), if_neg (by omega), if_neg (by omega), if_pos (by omega),
        Nat.add_sub_cancel]
      simp
    | four hb h =>
      subst hb
      rw [if_neg (by omega), if_neg (by omega), if_neg (by omega), if_neg (by omega),
        if_pos (by omega), Nat.add_sub_cancel]
      simp
    | none h =>
      rcases h with h | h
      · rw [if_neg (by omega), if_pos (by omega)]
      · rw [if_neg (by omega), if_neg (by omega), if_neg (by omega), if_neg (by omega),
          if_neg (by omega)]
  · rintro rfl
    unfold start
    split
    · exact .one ‹_›
    split
    · exact .none (by omega)
    split
    · exact .two (by omega) (by omega) (by omega)
    split
    · have h0 : b = 0xE0 ↔ b - 0xE0 = 0 := by omega
      have h13 : b = 0xED ↔ b - 0xE0 = 13 := by omega
      simp only [h0, h13]
      exact .three (by omega) (by omega)
    split
    · have h0 : b = 0xF0 ↔ b - 0xF0 = 0 := by omega
      have h4 : b = 0xF4 ↔ b - 0xF0 = 4 := by omega
      simp only [h0, h4]
      exact .four (by omega) (by omega)
    · exact .none (by omega)

/-- A continuation byte with a payload that fits. -/
theorem step_within {owed low high value p : Nat} (hp : p < 0x40) (hlow : low ≤ p)
    (hhigh : p ≤ high) :
    step (.within owed low high value) (p + 0x80) = extend owed value p := by
  have hpayload : payload? (p + 0x80) = some p := by
    rw [payload?, if_pos (by omega), Nat.add_sub_cancel]
  have hfits : (some p).filter (fun p ↦ low ≤ p && p ≤ high) = some p := by simp [hlow, hhigh]
  rw [step, hpayload, hfits]

/-- A byte within a character continues it, or it ends an ill-formed stretch. -/
theorem step_within_cases (owed low high value b : Nat) :
    (∃ p, b = p + 0x80 ∧ p < 0x40 ∧ low ≤ p ∧ p ≤ high ∧
      step (.within owed low high value) b = extend owed value p) ∨
    step (.within owed low high value) b = (none :: (start b).1, (start b).2) := by
  by_cases h : 0x80 ≤ b ∧ b < 0xC0 ∧ low ≤ b - 0x80 ∧ b - 0x80 ≤ high
  · obtain ⟨hb, hb', hlow, hhigh⟩ := h
    have hstep : step (.within owed low high value) (b - 0x80 + 0x80) =
        extend owed value (b - 0x80) := step_within (by omega) hlow hhigh
    rw [Nat.sub_add_cancel hb] at hstep
    exact .inl ⟨b - 0x80, by omega, by omega, hlow, hhigh, hstep⟩
  · right
    have hnone : (payload? b).filter (fun p ↦ low ≤ p && p ≤ high) = none := by
      unfold payload?
      split
      · simp; omega
      · rfl
    rw [step, hnone]

/-- A byte within a character that ends no ill-formed stretch is a continuation byte with a payload
that fits. -/
theorem exists_payload_of_step {owed low high value b : Nat} {yielded : List Decoded × State}
    (h : step (.within owed low high value) b = yielded) (hnone : none ∉ yielded.1) :
    ∃ p, b = p + 0x80 ∧ p < 0x40 ∧ low ≤ p ∧ p ≤ high ∧ extend owed value p = yielded := by
  rcases step_within_cases owed low high value b with ⟨p, hb, hp, hlow, hhigh, hstep⟩ | hstep
  · exact ⟨p, hb, hp, hlow, hhigh, hstep.symm.trans h⟩
  · rw [← h, hstep] at hnone
    exact absurd List.mem_cons_self hnone

/-! ### What completes a character -/

/-- Some bytes, read in a state, yield a character with the last of them and nothing before. -/
inductive Completes : State → Bytes → Char → Prop where
  | last {state : State} {b : UInt8} {c : Char} (h : step state b.toNat = ([some c], .ground)) :
    Completes state [b] c
  | cons {state next : State} {b : UInt8} {rest : Bytes} {c : Char}
    (h : step state b.toNat = ([], next)) (hrest : Completes next rest c) :
    Completes state (b :: rest) c

/-- The last byte of a character. -/
theorem completes_within_zero_iff {low high value : Nat} {bytes : Bytes} {c : Char} :
    Completes (.within 0 low high value) bytes c ↔
      ∃ p, p < 0x40 ∧ low ≤ p ∧ p ≤ high ∧ bytes = [UInt8.ofNat (p + 0x80)] ∧
        c = Char.ofNat (64 * value + p) := by
  constructor
  · intro h
    cases h with
    | @last _ b _ h =>
      obtain ⟨p, hb, hp, hlow, hhigh, hextend⟩ := exists_payload_of_step h (by simp)
      cases hextend
      exact ⟨p, hp, hlow, hhigh, by rw [← hb, UInt8.ofNat_toNat], rfl⟩
    | cons h _ =>
      obtain ⟨p, -, -, -, -, hextend⟩ := exists_payload_of_step h (by simp)
      cases hextend
  · rintro ⟨p, hp, hlow, hhigh, rfl, rfl⟩
    refine .last ?_
    rw [toNat_ofNat_of_lt (by omega), step_within hp hlow hhigh, extend]

/-- A byte of a character before the last one. -/
theorem completes_within_succ_iff {owed low high value : Nat} {bytes : Bytes} {c : Char} :
    Completes (.within (owed + 1) low high value) bytes c ↔
      ∃ p rest, p < 0x40 ∧ low ≤ p ∧ p ≤ high ∧ bytes = UInt8.ofNat (p + 0x80) :: rest ∧
        Completes (.within owed 0 0x3F (64 * value + p)) rest c := by
  constructor
  · intro h
    cases h with
    | last h =>
      obtain ⟨p, -, -, -, -, hextend⟩ := exists_payload_of_step h (by simp)
      cases hextend
    | @cons _ _ b rest _ h hrest =>
      obtain ⟨p, hb, hp, hlow, hhigh, hextend⟩ := exists_payload_of_step h (by simp)
      cases hextend
      exact ⟨p, rest, hp, hlow, hhigh, by rw [← hb, UInt8.ofNat_toNat], hrest⟩
  · rintro ⟨p, rest, hp, hlow, hhigh, rfl, hrest⟩
    refine .cons ?_ hrest
    rw [toNat_ofNat_of_lt (by omega), step_within hp hlow hhigh, extend]

/-- A character that is begun with its first byte. -/
private theorem Completes.of_startsAs {v : Nat} {next : State} {rest : Bytes} {c : Char}
    (h : StartsAs v ([], next)) (hv : v < 256) (hrest : Completes next rest c) :
    Completes .ground (UInt8.ofNat v :: rest) c := by
  refine .cons ?_ hrest
  rw [toNat_ofNat_of_lt hv]
  exact startsAs_iff.mp h

/-- The encoding of a character completes it. -/
theorem completes_encodeChar (c : Char) : Completes .ground (utf8EncodeChar c) c := by
  obtain ⟨n, hn, rfl⟩ : ∃ n : Nat, n.isValidChar ∧ c = Char.ofNat n :=
    ⟨c.toNat, c.valid, (Char.ofNat_toNat c).symm⟩
  have hrange : n < 0xD800 ∨ 0xDFFF < n ∧ n < 0x110000 := hn
  by_cases h1 : n < 0x80
  · rw [encodeChar_one h1]
    refine .last ?_
    rw [toNat_ofNat_of_lt (by omega)]
    exact startsAs_iff.mp (.one h1)
  by_cases h2 : n < 0x800
  · have hlast : Completes (.within 0 0 0x3F (n / 64)) [UInt8.ofNat (n % 64 + 0x80)]
        (Char.ofNat n) :=
      completes_within_zero_iff.mpr ⟨n % 64, by omega, by omega, by omega, rfl,
        congrArg Char.ofNat (by omega)⟩
    rw [encodeChar_two (by omega) h2]
    exact .of_startsAs (.two rfl (by omega) (by omega)) (by omega) hlast
  by_cases h3 : n < 0x10000
  · have hlast : Completes (.within 0 0 0x3F (64 * (n / 4096) + n / 64 % 64))
        [UInt8.ofNat (n % 64 + 0x80)] (Char.ofNat n) :=
      completes_within_zero_iff.mpr ⟨n % 64, by omega, by omega, by omega, rfl,
        congrArg Char.ofNat (by omega)⟩
    rw [encodeChar_three (by omega) h3 hn]
    refine .of_startsAs (.three rfl (by omega)) (by omega) ?_
    refine completes_within_succ_iff.mpr ⟨n / 64 % 64, _, by omega, ?_, ?_, rfl, hlast⟩
    · split <;> omega
    · split <;> omega
  · have hlast : Completes (.within 0 0 0x3F (64 * (64 * (n / 262144) + n / 4096 % 64) +
        n / 64 % 64)) [UInt8.ofNat (n % 64 + 0x80)] (Char.ofNat n) :=
      completes_within_zero_iff.mpr ⟨n % 64, by omega, by omega, by omega, rfl,
        congrArg Char.ofNat (by omega)⟩
    have hthird := completes_within_succ_iff.mpr
      ⟨n / 64 % 64, _, by omega, Nat.zero_le _, (by omega : _ ≤ 0x3F), rfl, hlast⟩
    rw [encodeChar_four (by omega) (by omega)]
    refine .of_startsAs (.four rfl (by omega)) (by omega) ?_
    refine completes_within_succ_iff.mpr ⟨n / 4096 % 64, _, by omega, ?_, ?_, rfl, hthird⟩
    · split <;> omega
    · split <;> omega

/-- Nothing else completes a character. -/
theorem eq_encodeChar {bytes : Bytes} {c : Char} (h : Completes .ground bytes c) :
    bytes = utf8EncodeChar c := by
  cases h with
  | @last _ b _ h =>
    cases startsAs_iff.mpr h with
    | one hb => rw [encodeChar_one hb, UInt8.ofNat_toNat]
  | @cons _ next b rest _ h hrest =>
    rw [← UInt8.ofNat_toNat (x := b)]
    cases startsAs_iff.mpr h with
    | @two v hb h h' =>
      obtain ⟨p, hp, -, -, rfl, rfl⟩ := completes_within_zero_iff.mp hrest
      have hlead : (64 * v + p) / 64 = v := by omega
      have hlast : (64 * v + p) % 64 = p := by omega
      rw [encodeChar_two (by omega) (by omega), hb, hlead, hlast]
    | @three v hb h =>
      obtain ⟨p, rest', hp, hlow, hhigh, rfl, hrest'⟩ := completes_within_succ_iff.mp hrest
      obtain ⟨q, hq, -, -, rfl, rfl⟩ := completes_within_zero_iff.mp hrest'
      have hlead : (64 * (64 * v + p) + q) / 4096 = v := by omega
      have hmid : (64 * (64 * v + p) + q) / 64 % 64 = p := by omega
      have hlast : (64 * (64 * v + p) + q) % 64 = q := by omega
      rw [encodeChar_three ?_ ?_ ?_, hb, hlead, hmid, hlast]
      · split at hlow <;> omega
      · omega
      · change _ < 0xD800 ∨ 0xDFFF < _ ∧ _ < 0x110000
        split at hhigh <;> omega
    | @four v hb h =>
      obtain ⟨p, rest', hp, hlow, hhigh, rfl, hrest'⟩ := completes_within_succ_iff.mp hrest
      obtain ⟨q, rest'', hq, -, -, rfl, hrest''⟩ := completes_within_succ_iff.mp hrest'
      obtain ⟨r, hr, -, -, rfl, rfl⟩ := completes_within_zero_iff.mp hrest''
      have hlead : (64 * (64 * (64 * v + p) + q) + r) / 262144 = v := by omega
      have hsecond : (64 * (64 * (64 * v + p) + q) + r) / 4096 % 64 = p := by omega
      have hthird : (64 * (64 * (64 * v + p) + q) + r) / 64 % 64 = q := by omega
      have hlast : (64 * (64 * (64 * v + p) + q) + r) % 64 = r := by omega
      rw [encodeChar_four ?_ ?_, hb, hlead, hsecond, hthird, hlast]
      · split at hlow <;> omega
      · split at hhigh <;> omega

end LaunchOptions.Utf8

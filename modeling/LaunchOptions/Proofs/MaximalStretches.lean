import LaunchOptions.Proofs.CharacterEncoding
import Mathlib.Data.Nat.Find

/-!
# Maximal stretches

What bytes hold, said without the machine. At the front of some bytes there is the encoding of a
character, or else a stretch that is ill formed. Such a stretch is as long as the encoding of some
character goes on in the same way, and one byte long if no encoding begins so. Cut in this way,
bytes have one reading, and the machine finds it.
-/

namespace LaunchOptions.Utf8

open String (utf8EncodeChar)

/-- Some character's encoding begins with these bytes. -/
def Begins (bytes : Bytes) : Prop := ∃ c, bytes <+: utf8EncodeChar c

/-- Some bytes are a maximal ill-formed stretch before others: no character is encoded there, and
they are the longest beginning of a character's encoding, or one byte if there is none. -/
structure IsMaximalStretch (stretch rest : Bytes) : Prop where
  ne_nil : stretch ≠ []
  not_character (c : Char) : ¬ utf8EncodeChar c <+: stretch ++ rest
  begins : stretch.length = 1 ∨ Begins stretch
  longest {longer : Bytes} (h : longer <+: stretch ++ rest) (hb : Begins longer) :
    longer.length ≤ stretch.length

/-- What bytes hold: encodings of characters and maximal ill-formed stretches, in order. -/
inductive Reads : Bytes → List Decoded → Prop where
  | nil : Reads [] []
  | character (c : Char) {rest : Bytes} {units : List Decoded} (h : Reads rest units) :
    Reads (utf8EncodeChar c ++ rest) (some c :: units)
  | stretch {stretch rest : Bytes} {units : List Decoded} (hs : IsMaximalStretch stretch rest)
    (h : Reads rest units) : Reads (stretch ++ rest) (none :: units)

/-! ### Bytes that yield nothing yet -/

/-- Bytes that lead from a state to another one and yield nothing. -/
private inductive Advances : State → Bytes → State → Prop where
  | nil {state : State} : Advances state [] state
  | cons {state next last : State} {b : UInt8} {rest : Bytes}
    (h : step state b.toNat = ([], next)) (hrest : Advances next rest last) :
    Advances state (b :: rest) last

private theorem Advances.scanFrom_append {state last : State} {part : Bytes}
    (h : Advances state part last) (rest : Bytes) :
    scanFrom state (part ++ rest) = scanFrom last rest := by
  induction h with
  | nil => rfl
  | cons h _ ih => rw [List.cons_append, scanFrom, h, ih, List.nil_append]

private theorem Advances.completes {state last : State} {part rest : Bytes} {c : Char}
    (h : Advances state part last) (hrest : Completes last rest c) :
    Completes state (part ++ rest) c := by
  induction h with
  | nil => exact hrest
  | cons h _ ih => exact .cons h (ih hrest)

private theorem Advances.concat {state last next : State} {part : Bytes} {b : UInt8}
    (h : Advances state part last) (hb : step last b.toNat = ([], next)) :
    Advances state (part ++ [b]) next := by
  induction h with
  | nil => exact .cons hb .nil
  | cons h _ ih => exact .cons h (ih hb)

private theorem Completes.scanFrom_append {state : State} {bytes : Bytes} {c : Char}
    (h : Completes state bytes c) (rest : Bytes) :
    scanFrom state (bytes ++ rest) = some c :: scan rest := by
  induction h with
  | last h => rw [List.singleton_append, scanFrom, h, List.singleton_append, scan]
  | cons h _ ih => rw [List.cons_append, scanFrom, h, ih, List.nil_append]

/-- The bytes of a character but some last ones yield nothing. -/
private theorem Completes.exists_advances {state : State} {part rest : Bytes} {c : Char}
    (h : Completes state (part ++ rest) c) (hrest : rest ≠ []) :
    ∃ last, Advances state part last ∧ Completes last rest c := by
  induction part generalizing state with
  | nil => exact ⟨state, .nil, h⟩
  | cons b more ih =>
    rw [List.cons_append] at h
    generalize hmore : more ++ rest = bytes at h
    cases h with
    | last h => exact absurd (List.append_eq_nil_iff.mp hmore).2 hrest
    | cons h hcompletes =>
      subst hmore
      obtain ⟨last, hadvances, hlast⟩ := ih hcompletes
      exact ⟨last, .cons h hadvances, hlast⟩

/-- A byte that yields nothing leaves a state within a character, with a range for the next payload
that is not empty. -/
private theorem exists_within_of_step {state next : State} {b : Nat}
    (h : step state b = ([], next)) :
    ∃ owed low high value, next = .within owed low high value ∧ low ≤ high ∧ low < 0x40 := by
  have hstart {b : Nat} {next : State} (h : start b = ([], next)) :
      ∃ owed low high value, next = .within owed low high value ∧ low ≤ high ∧ low < 0x40 := by
    cases startsAs_iff.mpr h with
    | two => exact ⟨_, _, _, _, rfl, by omega, by omega⟩
    | three => exact ⟨_, _, _, _, rfl, by split <;> split <;> omega, by split <;> omega⟩
    | four => exact ⟨_, _, _, _, rfl, by split <;> split <;> omega, by split <;> omega⟩
  cases state with
  | ground => exact hstart h
  | within owed low high value =>
    obtain ⟨p, -, -, -, -, hextend⟩ := exists_payload_of_step h (by simp)
    cases owed with
    | zero => cases hextend
    | succ owed =>
      cases hextend
      exact ⟨_, _, _, _, rfl, by omega, by omega⟩

/-- A character that is begun can be completed. -/
private theorem exists_completes_within (owed low high value : Nat) (h : low ≤ high)
    (hlow : low < 0x40) : ∃ rest c, Completes (.within owed low high value) rest c := by
  induction owed generalizing low high value with
  | zero => exact ⟨_, _, completes_within_zero_iff.mpr ⟨low, hlow, Nat.le_refl _, h, rfl, rfl⟩⟩
  | succ owed ih =>
    obtain ⟨rest, c, hrest⟩ := ih 0 0x3F (64 * value + low) (by omega) (by omega)
    exact ⟨_, c, completes_within_succ_iff.mpr ⟨low, rest, hlow, Nat.le_refl _, h, rfl, hrest⟩⟩

/-- Bytes that yield nothing leave a state within a character. -/
private theorem Advances.exists_within {state last : State} {part : Bytes}
    (h : Advances state part last) (hp : part ≠ []) :
    ∃ owed low high value, last = .within owed low high value := by
  induction h with
  | nil => exact absurd rfl hp
  | @cons _ next last _ rest h hrest ih =>
    cases hrest with
    | nil =>
      obtain ⟨owed, low, high, value, hnext, -⟩ := exists_within_of_step h
      exact ⟨owed, low, high, value, hnext⟩
    | cons h' hrest' => exact ih (by simp)

/-! ### Readings by the machine -/

/-- The encoding of a character is read as that character. -/
theorem scan_encodeChar_append (c : Char) (rest : Bytes) :
    scan (utf8EncodeChar c ++ rest) = some c :: scan rest :=
  (completes_encodeChar c).scanFrom_append rest

/-- The bytes of a character are read as that character. -/
theorem scan_encodeChar (c : Char) : scan (utf8EncodeChar c) = [some c] := by
  have happend := scan_encodeChar_append c []
  rwa [List.append_nil] at happend

/-- Bytes that a step accepts after others begin a character together with them. -/
private theorem Advances.begins {part : Bytes} {last : State} {b : UInt8}
    (h : Advances .ground part last)
    (hb : (∃ c, step last b.toNat = ([some c], .ground)) ∨ ∃ next, step last b.toNat = ([], next)) :
    Begins (part ++ [b]) := by
  rcases hb with ⟨c, hb⟩ | ⟨next, hb⟩
  · exact ⟨c, eq_encodeChar (h.completes (.last hb)) ▸ List.prefix_rfl⟩
  · obtain ⟨owed, low, high, value, rfl, hle, hlow⟩ := exists_within_of_step hb
    obtain ⟨rest, c, hrest⟩ := exists_completes_within owed low high value hle hlow
    exact ⟨c, eq_encodeChar ((h.concat hb).completes hrest) ▸ List.prefix_append _ _⟩

private theorem IsMaximalStretch.not_begins_concat {stretch rest : Bytes} {b : UInt8}
    (h : IsMaximalStretch stretch (b :: rest)) : ¬ Begins (stretch ++ [b]) := by
  intro hb
  have hlength : (stretch ++ [b]).length ≤ stretch.length := h.longest (by simp) hb
  rw [List.length_append, List.length_singleton] at hlength
  omega

/-- A maximal stretch is read as one. -/
theorem scan_stretch_append {stretch rest : Bytes} (h : IsMaximalStretch stretch rest) :
    scan (stretch ++ rest) = none :: scan rest := by
  by_cases hb : Begins stretch
  · obtain ⟨c, more, hc⟩ := hb
    have hmore : more ≠ [] := by
      rintro rfl
      refine h.not_character c ?_
      rw [← hc, List.append_nil]
      exact List.prefix_append _ _
    obtain ⟨last, hadvances, -⟩ := (hc ▸ completes_encodeChar c).exists_advances hmore
    obtain ⟨owed, low, high, value, rfl⟩ := hadvances.exists_within h.ne_nil
    rw [scan, hadvances.scanFrom_append]
    cases rest with
    | nil => rfl
    | cons b rest =>
      rcases step_within_cases owed low high value b.toNat with ⟨p, -, -, -, -, hstep⟩ | hstep
      · refine absurd (hadvances.begins ?_) h.not_begins_concat
        cases owed with
        | zero => exact .inl ⟨_, hstep⟩
        | succ owed => exact .inr ⟨_, hstep⟩
      · rw [scanFrom, hstep, scan, scanFrom, step]
        rfl
  · obtain ⟨b, rfl⟩ := List.length_eq_one_iff.mp (h.begins.resolve_right hb)
    rw [List.singleton_append, scan, scanFrom, step]
    generalize hyielded : start b.toNat = yielded
    cases startsAs_iff.mpr hyielded with
    | none => rfl
    | one => exact absurd (Advances.nil.begins (.inl ⟨_, hyielded⟩)) hb
    | two => exact absurd (Advances.nil.begins (.inr ⟨_, hyielded⟩)) hb
    | three => exact absurd (Advances.nil.begins (.inr ⟨_, hyielded⟩)) hb
    | four => exact absurd (Advances.nil.begins (.inr ⟨_, hyielded⟩)) hb

/-- Bytes begin with a character or with a maximal stretch. -/
theorem exists_front {bytes : Bytes} (h : bytes ≠ []) :
    (∃ c rest, bytes = utf8EncodeChar c ++ rest) ∨
      ∃ stretch rest, bytes = stretch ++ rest ∧ IsMaximalStretch stretch rest := by
  classical
  by_cases hc : ∃ c, utf8EncodeChar c <+: bytes
  · obtain ⟨c, rest, hrest⟩ := hc
    exact .inl ⟨c, rest, hrest.symm⟩
  right
  have hpos : 0 < bytes.length := List.length_pos_iff.mpr h
  let n := Nat.findGreatest (fun n ↦ Begins (bytes.take n)) bytes.length
  have hn : n ≤ bytes.length := Nat.findGreatest_le _
  have hbegins : Begins (bytes.take n) :=
    Nat.findGreatest_spec (P := fun n ↦ Begins (bytes.take n)) (Nat.zero_le _)
      ⟨'a', by simp⟩
  have hlength : (bytes.take (max n 1)).length = max n 1 := by
    rw [List.length_take]
    omega
  refine ⟨bytes.take (max n 1), bytes.drop (max n 1), (List.take_append_drop _ _).symm, ?_⟩
  constructor
  · rw [← List.length_pos_iff, hlength]
    omega
  · intro c hprefix
    rw [List.take_append_drop] at hprefix
    exact hc ⟨c, hprefix⟩
  · by_cases hone : n ≤ 1
    · exact .inl (by omega)
    · exact .inr ((Nat.max_eq_left (by omega : 1 ≤ n)).symm ▸ hbegins)
  · intro longer hprefix hb
    rw [List.take_append_drop] at hprefix
    have hle : longer.length ≤ n :=
      Nat.le_findGreatest hprefix.length_le (List.prefix_iff_eq_take.mp hprefix ▸ hb)
    omega

/-- The machine gives a reading. -/
theorem reads_scan (bytes : Bytes) : Reads bytes (scan bytes) := by
  induction hlength : bytes.length using Nat.strongRecOn generalizing bytes with
  | ind n ih =>
    by_cases h : bytes = []
    · subst h
      exact .nil
    · rcases exists_front h with ⟨c, rest, rfl⟩ | ⟨stretch, rest, rfl, hs⟩
      · rw [scan_encodeChar_append]
        have hpos : 0 < (utf8EncodeChar c).length :=
          List.length_pos_iff.mpr String.utf8EncodeChar_ne_nil
        rw [List.length_append] at hlength
        exact .character c (ih _ (by omega) rest rfl)
      · rw [scan_stretch_append hs]
        have hpos : 0 < stretch.length := List.length_pos_iff.mpr hs.ne_nil
        rw [List.length_append] at hlength
        exact .stretch hs (ih _ (by omega) rest rfl)

/-- There is one reading. -/
theorem reads_iff {bytes : Bytes} {units : List Decoded} :
    Reads bytes units ↔ units = scan bytes := by
  constructor
  · intro h
    induction h with
    | nil => rfl
    | character c _ ih => rw [scan_encodeChar_append, ih]
    | stretch hs _ ih => rw [scan_stretch_append hs, ih]
  · rintro rfl
    exact reads_scan bytes

/-- The bytes of a text are read as its characters. -/
theorem scan_encode (t : Text) : scan (encode t) = t.map some := by
  induction t with
  | nil => rfl
  | cons c rest ih =>
    rw [List.map_cons, ← ih, ← scan_encodeChar_append]
    rfl

/-- The bytes of a text decode to it. -/
theorem decodeLossy_encode (t : Text) : decodeLossy (encode t) = t := by
  rw [decodeLossy, scan_encode, List.map_map]
  exact List.map_id t

/-- A text is known by its bytes. -/
theorem encode_injective : Function.Injective encode :=
  Function.LeftInverse.injective decodeLossy_encode

/-- Bytes without an ill-formed stretch are those of a text. -/
theorem exists_encode_eq {bytes : Bytes} (h : none ∉ scan bytes) : ∃ t, encode t = bytes := by
  generalize hunits : scan bytes = units at h
  have hreads := reads_iff.mpr hunits.symm
  clear hunits
  induction hreads with
  | nil => exact ⟨[], rfl⟩
  | character c _ ih =>
    obtain ⟨t, rfl⟩ := ih (by simpa using h)
    exact ⟨c :: t, rfl⟩
  | stretch => simp at h

/-- Units are all characters if none of them is an ill-formed stretch. -/
private theorem mapM_id_eq_some_iff {units : List Decoded} {t : Text} :
    units.mapM id = some t ↔ units = t.map some := by
  induction units generalizing t with
  | nil => cases t <;> simp
  | cons unit rest ih =>
    rw [List.mapM_cons]
    cases unit with
    | none => cases t <;> simp
    | some c =>
      cases t with
      | nil => simp [Option.bind_eq_some_iff]
      | cons d more =>
        simp only [id, Option.pure_def, Option.bind_eq_bind, Option.bind_some,
          Option.bind_eq_some_iff, ih, Option.some.injEq, List.cons.injEq, List.map_cons]
        constructor
        · rintro ⟨_, hrest, rfl, rfl⟩
          exact ⟨rfl, hrest⟩
        · rintro ⟨rfl, hrest⟩
          exact ⟨more, hrest, rfl, rfl⟩

/-- Bytes are well formed exactly if they are those of a text, and it is the text they decode to. -/
theorem decode?_eq_some_iff {bytes : Bytes} {t : Text} :
    decode? bytes = some t ↔ encode t = bytes := by
  rw [decode?, mapM_id_eq_some_iff]
  constructor
  · intro h
    have hnone : none ∉ scan bytes := by simp [h]
    obtain ⟨u, rfl⟩ := exists_encode_eq hnone
    rw [scan_encode] at h
    rw [(List.map_inj_right fun _ _ ↦ Option.some.inj).mp h]
  · rintro rfl
    exact scan_encode t

/-- Only no bytes at all decode to no text. -/
theorem decodeLossy_ne_nil {bytes : Bytes} (h : bytes ≠ []) : decodeLossy bytes ≠ [] := by
  intro hnil
  have hreads := reads_scan bytes
  rw [List.map_eq_nil_iff.mp hnil] at hreads
  cases hreads
  exact h rfl

/-- A character other than the replacement stands at the front of a decoded text only with its
encoding at the front of the bytes. -/
theorem encodeChar_isPrefix {bytes : Bytes} {c : Char} (h : (decodeLossy bytes).head? = some c)
    (hc : c ≠ replacement) : utf8EncodeChar c <+: bytes := by
  rw [decodeLossy] at h
  generalize hunits : scan bytes = units at h
  cases reads_iff.mpr hunits.symm with
  | nil => cases h
  | character d _ =>
    obtain rfl : d = c := Option.some.inj h
    exact List.prefix_append _ _
  | stretch => exact absurd (Option.some.inj h).symm hc

/-! ### Cutting bytes -/

/-- A byte of ASCII is a character of its own, before which and after which bytes may be cut. -/
theorem decodeLossy_append_ascii {b : UInt8} (h : b.toNat < 0x80) (before after : Bytes) :
    decodeLossy (before ++ b :: after) =
      decodeLossy before ++ Char.ofNat b.toNat :: decodeLossy after := by
  rw [decodeLossy, scan, scanFrom_append_ascii h, List.map_append]
  rfl

/-- Bytes may be cut before one that continues no character, without a change to what is read. -/
theorem scanFrom_append_cons {b : UInt8} (h : payload? b.toNat = none) (state : State)
    (before after : Bytes) :
    scanFrom state (before ++ b :: after) = scanFrom state before ++ scan (b :: after) := by
  induction before generalizing state with
  | nil =>
    cases state with
    | ground => rfl
    | within owed low high value =>
      have hstep : step (.within owed low high value) b.toNat =
          (none :: (start b.toNat).1, (start b.toNat).2) := by
        rw [step, h]
        rfl
      rw [List.nil_append, scanFrom, scanFrom, hstep]
      rfl
  | cons x rest ih => simp only [List.cons_append, scanFrom, ih, List.append_assoc]

/-- The first byte of a character continues none. -/
theorem payload?_of_encodeChar {b : UInt8} {rest : Bytes} {c : Char}
    (h : utf8EncodeChar c = b :: rest) : payload? b.toNat = none := by
  have hfirst : b.toNat < 0x80 ∨ 0xC2 ≤ b.toNat := by
    have hcompletes := completes_encodeChar c
    rw [h] at hcompletes
    cases hcompletes with
    | last h =>
      cases startsAs_iff.mpr h with
      | one hb => exact .inl hb
    | cons h _ => cases startsAs_iff.mpr h <;> omega
  rw [payload?, if_neg (by omega)]

/-- Bytes may be cut before the beginning of a character. -/
theorem scan_append_begun {part : Bytes} (h : Begins part) (hnil : part ≠ []) (before : Bytes) :
    scan (before ++ part) = scan before ++ scan part := by
  obtain ⟨b, rest, rfl⟩ := List.exists_cons_of_ne_nil hnil
  obtain ⟨c, more, hmore⟩ := h
  exact scanFrom_append_cons (payload?_of_encodeChar hmore.symm) .ground before rest

/-- A character that is cut short is one ill-formed stretch. -/
theorem scan_of_truncated {part : Bytes} {c : Char} (h : part <+: utf8EncodeChar c)
    (hnil : part ≠ []) (hcut : part ≠ utf8EncodeChar c) : scan part = [none] := by
  obtain ⟨more, hmore⟩ := h
  have hne : more ≠ [] := by
    rintro rfl
    exact hcut (by rw [← hmore, List.append_nil])
  obtain ⟨last, hadvances, -⟩ := (hmore ▸ completes_encodeChar c).exists_advances hne
  obtain ⟨owed, low, high, value, rfl⟩ := hadvances.exists_within hnil
  have hscan := hadvances.scanFrom_append []
  rw [List.append_nil] at hscan
  rw [scan, hscan]
  rfl

end LaunchOptions.Utf8

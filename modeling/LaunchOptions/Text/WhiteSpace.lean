import LaunchOptions.Text.Basic

/-!
# White space

The characters with the Unicode property White_Space, and the two operations that go by it:
trimming a text and cutting it into words. Look-alikes without the property, such as the
zero-width space U+200B and the byte order mark U+FEFF, belong to words.

Specification: `SPEC_FULL.md`, section 4.4.
-/

namespace LaunchOptions.Text

/-- The Unicode property White_Space. -/
def isWhiteSpace (c : Char) : Bool :=
  let n := c.toNat
  (0x09 ≤ n && n ≤ 0x0D) || n == 0x20 || n == 0x85 || n == 0xA0 || n == 0x1680 ||
    (0x2000 ≤ n && n ≤ 0x200A) || n == 0x2028 || n == 0x2029 || n == 0x202F ||
    n == 0x205F || n == 0x3000

/-- The text without the white space at its two ends. -/
def trim (t : Text) : Text :=
  ((t.dropWhile isWhiteSpace).reverse.dropWhile isWhiteSpace).reverse

/-- The maximal runs without white space, in order. -/
def words (t : Text) : List Text :=
  (t.pieces isWhiteSpace).filter (fun w ↦ !w.isEmpty)

/-- Words hold all of a text but its white space. -/
theorem flatten_words (t : Text) : (words t).flatten = t.filter (fun c ↦ !isWhiteSpace c) := by
  rw [← flatten_pieces]
  unfold words
  induction pieces isWhiteSpace t with
  | nil => rfl
  | cons w more ih => cases w <;> simp_all

/-- A word is not empty. -/
theorem ne_nil_of_mem_words {t w : Text} (h : w ∈ words t) : w ≠ [] := by
  intro hw
  simp [words, hw] at h

end LaunchOptions.Text

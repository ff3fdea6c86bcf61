/-!
# Text

A text is the list of its code points, so every rule on it is a recursion from the left.
`pieces` cuts a text at separators and loses nothing else.
-/

namespace LaunchOptions

/-- A text, as its code points in order. -/
abbrev Text := List Char

namespace Text

/-- The pieces between the characters that satisfy `p`: one more than there are such characters. -/
def pieces (p : Char → Bool) : Text → List Text
  | [] => [[]]
  | c :: rest =>
    if p c then [] :: pieces p rest
    else match pieces p rest with
      | [] => [[c]]
      | piece :: more => (c :: piece) :: more

/-- A text has at least one piece. -/
theorem pieces_ne_nil (p : Char → Bool) (t : Text) : pieces p t ≠ [] := by
  cases t with
  | nil => simp [pieces]
  | cons c rest =>
    simp only [pieces]
    split
    · simp
    · split <;> simp

/-- The pieces are the text without the separators. -/
theorem flatten_pieces (p : Char → Bool) (t : Text) :
    (pieces p t).flatten = t.filter (fun c ↦ !p c) := by
  induction t with
  | nil => simp [pieces]
  | cons c rest ih =>
    by_cases h : p c
    · simp [pieces, h, ih]
    · cases hr : pieces p rest with
      | nil => exact absurd hr (pieces_ne_nil p rest)
      | cons piece more => simp [pieces, h, hr, ← ih]

/-- No piece holds a separator. -/
theorem not_of_mem_pieces {p : Char → Bool} {t piece : Text} (h : piece ∈ pieces p t)
    {c : Char} (hc : c ∈ piece) : p c = false := by
  induction t generalizing piece with
  | nil =>
    simp only [pieces, List.mem_singleton] at h
    simp [h] at hc
  | cons d rest ih =>
    by_cases hd : p d
    · simp only [pieces, hd, if_true, List.mem_cons] at h
      rcases h with rfl | h
      · simp at hc
      · exact ih h hc
    · cases hr : pieces p rest with
      | nil => exact absurd hr (pieces_ne_nil p rest)
      | cons first more =>
        simp only [pieces, hd, hr, Bool.false_eq_true, if_false, List.mem_cons] at h
        rcases h with rfl | h
        · rcases List.mem_cons.mp hc with rfl | hc
          · simpa using hd
          · exact ih (by simp [hr]) hc
        · exact ih (by simp [hr, h]) hc

/-- The texts one after another, with `separator` between each two. -/
def joinWith (separator : Text) : List Text → Text
  | [] => []
  | [t] => t
  | t :: more => t ++ separator ++ joinWith separator more

end Text

end LaunchOptions

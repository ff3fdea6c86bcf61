import LaunchOptions.Text.Basic

/-!
# Cutting and joining texts

Cutting at a separator and joining with it undo each other. A text cut anywhere else is cut within
one piece. A text can also be cut at the first occurrence of a character alone.
-/

namespace LaunchOptions.Text

variable {p : Char → Bool}

/-- Texts are joined as lists are. -/
theorem joinWith_eq_intercalate (separator : Text) (ts : List Text) :
    joinWith separator ts = separator.intercalate ts := by
  induction ts with
  | nil => rfl
  | cons t more ih =>
    cases more with
    | nil => simp [joinWith]
    | cons u rest => simp [joinWith, ih, List.intercalate]

/-- Between what two lists of texts join to comes a separator. -/
theorem joinWith_append (separator : Text) {ts us : List Text} (ht : ts ≠ []) (hu : us ≠ []) :
    joinWith separator (ts ++ us) =
      joinWith separator ts ++ separator ++ joinWith separator us := by
  induction ts with
  | nil => exact absurd rfl ht
  | cons t more ih =>
    cases more with
    | nil =>
      obtain ⟨u, rest, rfl⟩ := List.exists_cons_of_ne_nil hu
      rfl
    | cons t' more =>
      have hmore := ih (by simp)
      simp only [List.cons_append, joinWith] at hmore ⊢
      rw [hmore]
      simp only [List.append_assoc]

/-- The first ones of some texts join to the beginning of what they all join to. -/
theorem joinWith_isPrefix (separator : Text) {ts us : List Text} (h : ts <+: us) :
    joinWith separator ts <+: joinWith separator us := by
  obtain ⟨rest, rfl⟩ := h
  by_cases ht : ts = []
  · exact ht ▸ List.nil_prefix
  · by_cases hr : rest = []
    · simp [hr]
    · rw [joinWith_append separator ht hr, List.append_assoc]
      exact List.prefix_append ..

/-- Texts are cut as lists are. -/
theorem pieces_eq_splitOnP (p : Char → Bool) (t : Text) : pieces p t = t.splitOnP p := by
  induction t with
  | nil => simp [pieces]
  | cons c rest ih =>
    rw [List.splitOnP_cons_eq_if_modifyHead, ← ih, pieces]
    cases h : pieces p rest with
    | nil => exact absurd h (pieces_ne_nil p rest)
    | cons piece more => rfl

/-- A separator cuts a text in two, each of which has its own pieces. -/
theorem pieces_append_cons {c : Char} (h : p c = true) (t u : Text) :
    pieces p (t ++ c :: u) = pieces p t ++ pieces p u := by
  simp only [pieces_eq_splitOnP, List.splitOnP_append_cons t u h]

/-- A text without a separator is one piece. -/
theorem pieces_of_forall {t : Text} (h : ∀ c ∈ t, p c = false) : pieces p t = [t] := by
  rw [pieces_eq_splitOnP, List.splitOnP_eq_singleton h]

/-- What is added without a separator is added to the last piece. -/
theorem getLast?_pieces_append (t : Text) {u : Text} (h : ∀ c ∈ u, p c = false) :
    ∃ piece, (pieces p (t ++ u)).getLast? = some (piece ++ u) := by
  induction t with
  | nil => exact ⟨[], by simp [pieces_of_forall h]⟩
  | cons c rest ih =>
    obtain ⟨piece, ih⟩ := ih
    cases hr : pieces p (rest ++ u) with
    | nil => exact absurd hr (pieces_ne_nil p _)
    | cons first more =>
      rw [List.cons_append, pieces, hr]
      rw [hr] at ih
      by_cases hc : p c
      · exact ⟨piece, by simpa [hc] using ih⟩
      · cases more with
        | nil =>
          obtain rfl : first = piece ++ u := by simpa using ih
          exact ⟨c :: piece, by simp [hc]⟩
        | cons second more => exact ⟨piece, by simpa [hc] using ih⟩

/-- What comes before the first occurrence of a character is all that comes before it. -/
theorem takeWhile_ne_append {c : Char} {before : Text} (h : c ∉ before) (after : Text) :
    (before ++ c :: after).takeWhile (· ≠ c) = before := by
  have hbefore : ∀ d ∈ before, decide (d ≠ c) = true := by
    intro d hd
    exact decide_eq_true fun he ↦ h (he ▸ hd)
  rw [List.takeWhile_append_of_pos hbefore]
  simp

/-- The first occurrence of a character stays with what comes after it. -/
theorem dropWhile_ne_append {c : Char} {before : Text} (h : c ∉ before) (after : Text) :
    (before ++ c :: after).dropWhile (· ≠ c) = c :: after := by
  have hsplit := List.takeWhile_append_dropWhile (p := (· ≠ c)) (l := before ++ c :: after)
  rw [takeWhile_ne_append h] at hsplit
  exact List.append_cancel_left hsplit

end LaunchOptions.Text

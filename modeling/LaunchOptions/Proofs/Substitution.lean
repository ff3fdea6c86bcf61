import LaunchOptions.Placeholder

/-!
# What substitution can change

Each replacement keeps what every single one keeps. So an option keeps its first character unless
that begins a placeholder, and it gains no character that is in none of the values.
-/

namespace LaunchOptions.Placeholder

variable {pattern value t : Text} {c : Char}

/-- The characters of a text with replacements are its own or those of the value. -/
theorem mem_of_mem_replaceAfter {skip : Nat} (h : c ∈ replaceAfter pattern value skip t) :
    c ∈ t ∨ c ∈ value := by
  induction t generalizing skip with
  | nil => simp [replaceAfter] at h
  | cons d rest ih =>
    cases skip with
    | succ skip => exact (ih h).imp_left (List.mem_cons_of_mem d)
    | zero =>
      simp only [replaceAfter] at h
      split at h
      · rcases List.mem_append.mp h with h | h
        · exact .inr h
        · exact (ih h).imp_left (List.mem_cons_of_mem d)
      · rcases List.mem_cons.mp h with rfl | h
        · exact .inl List.mem_cons_self
        · exact (ih h).imp_left (List.mem_cons_of_mem d)

/-- A text that cannot begin with the pattern keeps its first character. -/
theorem head?_replace (ht : t.head? = some c) (hc : pattern.head? ≠ some c)
    (hp : pattern ≠ []) : (replace pattern value t).head? = some c := by
  obtain ⟨d, more, rfl⟩ := List.exists_cons_of_ne_nil hp
  cases t with
  | nil => cases ht
  | cons first rest =>
    obtain rfl : first = c := Option.some.inj ht
    have hd : d ≠ first := fun hd ↦ hc (congrArg some hd)
    simp [replace, replaceAfter, hd]

/-- What a text has, and each replacement of a bound placeholder keeps, holds after substitution. -/
theorem substitute_induction {P : Text → Prop} {bindings : Bindings} {option : Text}
    (h : P option)
    (hstep : ∀ binding ∈ bindings.toList, ∀ t, P t → P (replace (ofKey binding.1) binding.2 t)) :
    P (substitute bindings option) := by
  unfold substitute
  split
  · exact List.foldlRecOn bindings.toList _ h fun t ht binding hb ↦ hstep binding hb t ht
  · exact h

/-- The characters of an option after substitution are its own or those of a value. -/
theorem mem_of_mem_substitute {bindings : Bindings} {option : Text}
    (h : c ∈ substitute bindings option) :
    c ∈ option ∨ ∃ binding ∈ bindings.toList, c ∈ binding.2 := by
  refine substitute_induction (P := fun t ↦ c ∈ t → _) .inl ?_ h
  intro binding hb t ht hmem
  rcases mem_of_mem_replaceAfter hmem with hmem | hmem
  · exact ht hmem
  · exact .inr ⟨binding, hb, hmem⟩

/-- Substitution keeps the first character of an option, unless that is the one that begins a
placeholder. -/
theorem head?_substitute {bindings : Bindings} {option : Text} (h : option.head? = some c)
    (hc : c ≠ '$') : (substitute bindings option).head? = some c := by
  refine substitute_induction (P := fun t ↦ t.head? = some c) h ?_
  intro binding _ t ht
  exact head?_replace ht (by simpa [ofKey] using hc.symm) (ofKey_ne_nil binding.1)

end LaunchOptions.Placeholder

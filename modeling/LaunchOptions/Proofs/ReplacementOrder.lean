import LaunchOptions.Proofs.OnePass

/-!
# The order of replacements

The test for placeholders saves work and has no other effect. Where each dollar sign of an option
begins a closed placeholder or stands alone, and no value has a dollar sign, an option is a row of
characters and placeholders that every replacement keeps. So the replacements can be made in any
order, they leave no bound placeholder over, and a second substitution has nothing to replace.
-/

namespace LaunchOptions.Placeholder

variable {entries : List (Text × Text)} {bindings : Bindings} {key value t option : Text}

/-! ### The test for placeholders -/

/-- The test fails exactly if the text has the placeholder of no key. -/
theorem occursIn_eq_false_iff : occursIn t = false ↔ ∀ key, ¬ ofKey key <:+: t := by
  rw [← Bool.not_eq_true, occursIn_iff, not_exists]

/-- A text without the placeholder of a key is left alone. -/
theorem replace_eq_self (h : ¬ ofKey key <:+: t) : replace (ofKey key) value t = t := by
  rw [replace_eq_expand]
  exact expand_eq_self (List.forall_mem_singleton.mpr h)

/-- A text without placeholders is left alone by every replacement. -/
theorem replaceEach_eq_self (h : ∀ key, ¬ ofKey key <:+: t) : replaceEach entries t = t := by
  induction entries with
  | nil => rfl
  | cons binding rest ih =>
    rw [replaceEach_cons, replace_eq_self (h binding.1)]
    exact ih

/-- Substitution is the replacements in the order of the keys, with the test or without it. -/
theorem substitute_eq_replaceEach (bindings : Bindings) (option : Text) :
    substitute bindings option = replaceEach bindings.toList option := by
  unfold substitute
  split
  · rfl
  · next h =>
    exact (replaceEach_eq_self (occursIn_eq_false_iff.mp (Bool.not_eq_true _ ▸ h))).symm

/-- The test for placeholders changes no outcome: with or without it, an option comes out as the
replacements in the order of the keys give it. The test fails exactly if the option has the
placeholder of no key whatsoever, and then no replacement changes it. -/
theorem substitute_without_test (bindings : Bindings) (option : Text) :
    substitute bindings option =
      replaceEach bindings.toList option ∧
    (occursIn option = false ↔ ∀ key, ¬ ofKey key <:+: option) ∧
    (occursIn option = false → ∀ key value, replace (ofKey key) value option = option) := by
  refine ⟨substitute_eq_replaceEach bindings option, occursIn_eq_false_iff, fun h key value ↦ ?_⟩
  exact replace_eq_self (occursIn_eq_false_iff.mp h key)

/-! ### The parts of an option -/

/-- A part of an option. -/
inductive Part where
  | char (c : Char)
  | placeholder (name : Text)
  deriving DecidableEq, Repr

namespace Part

/-- The characters of a part. -/
def text : Part → Text
  | char c => [c]
  | placeholder name => ofKey name

/-- What a part becomes when values are put in place of placeholders: the characters of the value,
if there is one. -/
def fill (value? : Text → Option Text) : Part → List Part
  | char c => [char c]
  | placeholder name =>
    match value? name with
    | some value => value.map char
    | none => [placeholder name]

/-- The characters of a part after its placeholder is replaced. -/
def filledText (bindings : Bindings) : Part → Text
  | char c => [c]
  | placeholder name => (bindings.get? name).getD (ofKey name)

section

variable {value? : Text → Option Text}

private theorem fill_of_some {name : Text} (h : value? name = some value) :
    (placeholder name).fill value? = value.map char := by
  simp only [fill, h]

private theorem fill_of_none {name : Text} (h : value? name = none) :
    (placeholder name).fill value? = [placeholder name] := by
  simp only [fill, h]

/-- A value is not looked into. -/
theorem flatMap_fill_chars (value : Text) : (value.map char).flatMap (fill value?) =
    value.map char := by
  rw [List.flatMap_map, List.map_eq_flatMap]
  rfl

/-- Where values have been put in, there are none left to put in. -/
theorem flatMap_fill_fill (part : Part) :
    (part.fill value?).flatMap (fill value?) = part.fill value? := by
  cases part with
  | char c => rfl
  | placeholder name =>
    cases h : value? name with
    | some value => rw [fill_of_some h, flatMap_fill_chars]
    | none => rw [fill_of_none h, List.flatMap_singleton, fill_of_none h]

/-- The placeholders that are left have no value. -/
theorem eq_none_of_placeholder_mem_fill {part : Part} (h : placeholder key ∈ part.fill value?) :
    value? key = none := by
  cases part with
  | char c => simp [fill] at h
  | placeholder name =>
    cases hname : value? name with
    | some value => simp [fill_of_some hname] at h
    | none =>
      rw [fill_of_none hname, List.mem_singleton] at h
      cases h
      exact hname

private theorem flatMap_text_chars (value : Text) : (value.map char).flatMap text = value := by
  rw [List.flatMap_map]
  exact List.flatMap_singleton' value

private theorem flatMap_text_fill (bindings : Bindings) (part : Part) :
    (part.fill bindings.get?).flatMap text = part.filledText bindings := by
  cases part with
  | char c => rfl
  | placeholder name =>
    rw [filledText]
    cases h : bindings.get? name with
    | some value => rw [fill_of_some h, flatMap_text_chars, Option.getD_some]
    | none => rw [fill_of_none h, List.flatMap_singleton, Option.getD_none, text]

end

end Part

/-- The parts of a text in which each dollar sign begins a placeholder whose name has no dollar sign
and no closing brace, or is followed by neither a dollar sign nor an opening brace. -/
inductive HasParts : Text → List Part → Prop where
  | nil : HasParts [] []
  | char {c : Char} {rest : Text} {parts : List Part}
    (h : c = '$' → rest.head? ≠ some '$' ∧ rest.head? ≠ some '{') (hrest : HasParts rest parts) :
    HasParts (c :: rest) (.char c :: parts)
  | placeholder {name rest : Text} {parts : List Part} (hdollar : '$' ∉ name) (hbrace : '}' ∉ name)
    (hrest : HasParts rest parts) : HasParts (ofKey name ++ rest) (.placeholder name :: parts)

/-- A placeholder begins with a dollar sign, so it occurs after characters that are none. -/
theorem isInfix_of_isInfix_append {front rest : Text} (hfront : '$' ∉ front)
    (h : ofKey key <:+: front ++ rest) : ofKey key <:+: rest := by
  induction front with
  | nil => exact h
  | cons c more ih =>
    rw [List.mem_cons, not_or] at hfront
    rcases List.infix_cons_iff.mp h with hbegins | hmore
    · exact absurd (List.cons_prefix_cons.mp hbegins).1 hfront.1
    · exact ih hfront.2 hmore

namespace HasParts

variable {parts : List Part} {value? : Text → Option Text}

/-- The parts hold all of the text. -/
theorem flatMap_text (h : HasParts t parts) : parts.flatMap Part.text = t := by
  induction h with
  | nil => rfl
  | char _ _ ih => rw [List.flatMap_cons, ih]; rfl
  | placeholder _ _ _ ih => rw [List.flatMap_cons, ih]; rfl

/-- A value without a dollar sign is a row of characters. -/
theorem value_append {rest : Text} (h : HasParts rest parts) (hvalue : '$' ∉ value) :
    HasParts (value ++ rest) (value.map .char ++ parts) := by
  induction value with
  | nil => exact h
  | cons c more ih =>
    rw [List.mem_cons, not_or] at hvalue
    exact .char (fun hc ↦ absurd hc.symm hvalue.1) (ih hvalue.2)

/-- No placeholder begins at a character that is a part of its own. -/
theorem not_ofKey_isPrefix {c : Char} {rest : Text}
    (h : c = '$' → rest.head? ≠ some '$' ∧ rest.head? ≠ some '{') (key : Text) :
    ¬ ofKey key <+: c :: rest := by
  rintro ⟨after, hafter⟩
  obtain ⟨rfl, rfl⟩ := List.cons.inj hafter
  exact (h rfl).2 rfl

/-- A replacement puts the characters of the value in place of the placeholders of the key, and
changes no other part. -/
theorem replace (h : HasParts t parts) (hkey : '}' ∉ key) (hvalue : '$' ∉ value) :
    HasParts (replace (ofKey key) value t)
      (parts.flatMap (Part.fill (OrderedMap.lookup [(key, value)]))) := by
  rw [replace_eq_expand]
  induction h with
  | nil => exact .nil
  | @char c rest parts h _ ih =>
    have hnone : first? [(key, value)] (c :: rest) = none :=
      first?_eq_none_iff.mpr (List.forall_mem_singleton.mpr (not_ofKey_isPrefix h key))
    rw [expand_cons hnone]
    refine .char (fun hc ↦ ?_) ih
    -- What follows a dollar sign that stands alone is a character that the replacement keeps.
    cases rest with
    | nil => exact ⟨nofun, nofun⟩
    | cons d more =>
      have hd : (ofKey key).head? ≠ some d := fun hd ↦ (h hc).1 hd.symm
      rw [← replace_eq_expand, head?_replace rfl hd (ofKey_ne_nil key)]
      exact h hc
  | @placeholder name rest parts hdollar hbrace _ ih =>
    rw [List.flatMap_cons]
    by_cases hname : key = name
    · subst hname
      have hfirst : first? [(key, value)] (ofKey key ++ rest) = some (key, value) := by
        simp [first?]
      have hfound : OrderedMap.lookup [(key, value)] key = some value := by
        simp [OrderedMap.lookup]
      rw [expand_ofKey_append hfirst, Part.fill_of_some hfound]
      exact ih.value_append hvalue
    · have hnone : first? [(key, value)] (ofKey name ++ rest) = none :=
        first?_eq_none_iff.mpr <| List.forall_mem_singleton.mpr fun hbegins ↦
          hname (eq_of_ofKey_isPrefix hkey hbrace hbegins)
      have hfound : OrderedMap.lookup [(key, value)] name = none := by
        simp [OrderedMap.lookup, hname]
      rw [expand_ofKey_append_of_none hdollar hnone, Part.fill_of_none hfound]
      exact .placeholder hdollar hbrace ih

/-- The placeholder of a key occurs in a text only as one of its parts. -/
theorem placeholder_mem (h : HasParts t parts) (hkey : '}' ∉ key) (hwithin : ofKey key <:+: t) :
    Part.placeholder key ∈ parts := by
  induction h with
  | nil => exact absurd (List.eq_nil_of_infix_nil hwithin) (ofKey_ne_nil key)
  | @char c rest parts h _ ih =>
    rcases List.infix_cons_iff.mp hwithin with hbegins | hrest
    · exact absurd hbegins (not_ofKey_isPrefix h key)
    · exact List.mem_cons_of_mem _ (ih hrest)
  | @placeholder name rest parts hdollar hbrace _ ih =>
    rcases List.infix_cons_iff.mp hwithin with hbegins | hrest
    · obtain rfl := eq_of_ofKey_isPrefix hkey hbrace hbegins
      exact List.mem_cons_self
    · have hname : '$' ∉ '{' :: (name ++ ['}']) := by simp [hdollar]
      exact List.mem_cons_of_mem _ (ih (isInfix_of_isInfix_append hname hrest))

end HasParts

/-! ### Replacements in any order -/

private theorem Part.fill_lookup_nil (part : Part) : part.fill (OrderedMap.lookup []) = [part] := by
  cases part <;> rfl

/-- To put values in for some bindings is to do so for the first one and then for the others. -/
theorem Part.fill_lookup_cons (binding : Text × Text) (rest : List (Text × Text)) (part : Part) :
    part.fill (OrderedMap.lookup (binding :: rest)) =
      (part.fill (OrderedMap.lookup [binding])).flatMap (Part.fill (OrderedMap.lookup rest)) := by
  cases part with
  | char c => rfl
  | placeholder name =>
    have hlookup (entries : List (Text × Text)) :
        OrderedMap.lookup (binding :: entries) name =
          if compare binding.1 name == .eq then some binding.2
          else OrderedMap.lookup entries name := OrderedMap.lookup_cons binding entries name
    by_cases hname : compare binding.1 name == .eq
    · simp only [hname, if_true] at hlookup
      rw [fill_of_some (hlookup rest), fill_of_some (hlookup []), flatMap_fill_chars]
    · simp only [hname] at hlookup
      rw [fill_of_none (hlookup []), List.flatMap_singleton, fill, fill, hlookup rest]
      rfl

/-- Replacements one after another put the first value of each key in place of its placeholders. -/
theorem HasParts.replaceEach {parts : List Part} (h : HasParts t parts)
    (hentries : ∀ binding ∈ entries, '}' ∉ binding.1 ∧ '$' ∉ binding.2) :
    HasParts (replaceEach entries t) (parts.flatMap (Part.fill (OrderedMap.lookup entries))) := by
  induction entries generalizing t parts with
  | nil =>
    have hsame : parts.flatMap (Part.fill (OrderedMap.lookup [])) = parts := by
      rw [funext Part.fill_lookup_nil]
      exact List.flatMap_singleton' parts
    rw [hsame]
    exact h
  | cons binding rest ih =>
    obtain ⟨⟨hkey, hvalue⟩, hrest⟩ := List.forall_mem_cons.mp hentries
    have hstep := ih (h.replace hkey hvalue) hrest
    rw [List.flatMap_assoc] at hstep
    rw [funext (Part.fill_lookup_cons binding rest)]
    exact hstep

section

variable {parts : List Part}
  (hbindings : ∀ binding ∈ bindings.toList, '}' ∉ binding.1 ∧ '$' ∉ binding.2)

include hbindings

/-- In whichever order the replacements are made, each bound placeholder gives way to its value. -/
theorem HasParts.replaceEach_perm (h : HasParts t parts)
    (hentries : entries.Perm bindings.toList) :
    HasParts (Placeholder.replaceEach entries t) (parts.flatMap (Part.fill bindings.get?)) := by
  have hlookup : OrderedMap.lookup entries = bindings.get? :=
    funext (OrderedMap.lookup_perm hentries)
  rw [← hlookup]
  exact h.replaceEach fun binding hb ↦ hbindings binding (hentries.mem_iff.mp hb)

/-- Substitution puts the values in place of bound placeholders and keeps all other parts. -/
theorem HasParts.substitute (h : HasParts t parts) :
    HasParts (substitute bindings t) (parts.flatMap (Part.fill bindings.get?)) := by
  rw [substitute_eq_replaceEach]
  exact h.replaceEach_perm hbindings (.refl _)

/-- No bound placeholder is left over. -/
theorem HasParts.not_isInfix_substitute (h : HasParts t parts)
    (hkey : bindings.get? key = some value) :
    ¬ ofKey key <:+: Placeholder.substitute bindings t := by
  intro hwithin
  have hbrace : '}' ∉ key := (hbindings _ (OrderedMap.get?_eq_some_iff.mp hkey)).1
  obtain ⟨part, -, hpart⟩ :=
    List.mem_flatMap.mp ((h.substitute hbindings).placeholder_mem hbrace hwithin)
  rw [Part.eq_none_of_placeholder_mem_fill hpart] at hkey
  cases hkey

end

/-! ### Closed options -/

/-- Each dollar sign begins a placeholder whose name has no dollar sign and no closing brace, or is
followed by neither a dollar sign nor an opening brace. -/
def IsClosed (t : Text) : Prop :=
  ∀ after, '$' :: after <:+ t →
    (∃ name, ofKey name <+: '$' :: after ∧ '$' ∉ name ∧ '}' ∉ name) ∨
      after.head? ≠ some '$' ∧ after.head? ≠ some '{'

/-- The end of a closed text is closed. -/
theorem IsClosed.of_isSuffix {t' : Text} (h : IsClosed t) (ht : t' <:+ t) : IsClosed t' :=
  fun after hafter ↦ h after (hafter.trans ht)

instance (t : Text) : Decidable (IsClosed t) :=
  decidable_of_iff (∀ part ∈ t.tails, part.head? = some '$' →
    (∃ name ∈ (part.drop 2).inits, ofKey name <+: part ∧ '$' ∉ name ∧ '}' ∉ name) ∨
      part.tail.head? ≠ some '$' ∧ part.tail.head? ≠ some '{') <| by
    constructor
    · intro h after hafter
      refine (h _ ((List.mem_tails _ t).mpr hafter) rfl).imp_left ?_
      rintro ⟨name, -, hname⟩
      exact ⟨name, hname⟩
    · intro h part hpart hhead
      obtain ⟨after, rfl⟩ := List.head?_eq_some_iff.mp hhead
      refine (h after ((List.mem_tails _ t).mp hpart)).imp_left ?_
      rintro ⟨name, hbegins, hname⟩
      refine ⟨name, (List.mem_inits name _).mpr ?_, hbegins, hname⟩
      exact (List.prefix_append name _).trans (hbegins.drop 2)

/-- A closed text has parts. -/
theorem IsClosed.exists_hasParts (h : IsClosed t) : ∃ parts, HasParts t parts := by
  induction hlength : t.length using Nat.strongRecOn generalizing t with
  | ind n ih =>
    cases t with
    | nil => exact ⟨[], .nil⟩
    | cons c rest =>
      by_cases hplaceholder :
          ∃ name after, c :: rest = ofKey name ++ after ∧ '$' ∉ name ∧ '}' ∉ name
      · obtain ⟨name, after, heq, hdollar, hbrace⟩ := hplaceholder
        rw [heq] at h hlength ⊢
        rw [List.length_append, ofKey, List.length_cons] at hlength
        obtain ⟨parts, hparts⟩ :=
          ih after.length (by omega) (h.of_isSuffix (List.suffix_append _ after)) rfl
        exact ⟨_, .placeholder hdollar hbrace hparts⟩
      · rw [List.length_cons] at hlength
        obtain ⟨parts, hparts⟩ :=
          ih rest.length (by omega) (h.of_isSuffix (List.suffix_cons c rest)) rfl
        refine ⟨_, .char ?_ hparts⟩
        rintro rfl
        refine (h rest List.suffix_rfl).resolve_left ?_
        rintro ⟨name, ⟨after, hafter⟩, hname⟩
        exact hplaceholder ⟨name, after, hafter.symm, hname⟩

/-- In a closed option without dollar signs in the values, each placeholder of a bound key gives way
to its value and all else stays. The order of the replacements makes no difference, no placeholder
of a bound key is left over, and substituting once more changes nothing. -/
theorem substitute_of_isClosed (bindings : Bindings) (option : Text)
    (hkeys : ∀ binding ∈ bindings.toList, '}' ∉ binding.1)
    (hvalues : ∀ binding ∈ bindings.toList, '$' ∉ binding.2) (h : IsClosed option) :
    (∀ entries : List (Text × Text), entries.Perm bindings.toList →
      replaceEach entries option =
        substitute bindings option) ∧
    (∀ key value, bindings.get? key = some value →
      ¬ ofKey key <:+: substitute bindings option) ∧
    (∃ parts, HasParts option parts) ∧
    (∀ parts, HasParts option parts →
      substitute bindings option = parts.flatMap (Part.filledText bindings)) ∧
    substitute bindings (substitute bindings option) = substitute bindings option := by
  have hbindings : ∀ binding ∈ bindings.toList, '}' ∉ binding.1 ∧ '$' ∉ binding.2 :=
    fun binding hb ↦ ⟨hkeys binding hb, hvalues binding hb⟩
  obtain ⟨parts, hparts⟩ := h.exists_hasParts
  refine ⟨fun entries hentries ↦ ?_, fun key value ↦ hparts.not_isInfix_substitute hbindings,
    ⟨parts, hparts⟩, fun parts hparts ↦ ?_, ?_⟩
  · exact (hparts.replaceEach_perm hbindings hentries).flatMap_text.symm.trans
      (hparts.substitute hbindings).flatMap_text
  · rw [← (hparts.substitute hbindings).flatMap_text, List.flatMap_assoc,
      funext (Part.flatMap_text_fill bindings)]
  · have hagain := (hparts.substitute hbindings).substitute hbindings
    rw [List.flatMap_assoc, funext Part.flatMap_fill_fill] at hagain
    rw [← hagain.flatMap_text, (hparts.substitute hbindings).flatMap_text]

/-- An option with a bound and an unbound placeholder side by side and a dollar sign that stands
alone; a value with braces, and a key with a dollar sign and an opening brace. -/
theorem substitute_of_isClosed_adjacent :
    let option := ['-', 'D'] ++ ofKey ['P'] ++ ofKey ['Q'] ++ ['$', ':']
    let bindings : Bindings := .ofList [(['P'], ['{', 'Q', '}']), (['$', '{', 'Q'], ['x'])]
    (∀ binding ∈ bindings.toList, '}' ∉ binding.1) ∧
      (∀ binding ∈ bindings.toList, '$' ∉ binding.2) ∧
      IsClosed option ∧
      replaceEach bindings.toList.reverse option =
        substitute bindings option ∧
      ¬ ofKey ['P'] <:+: substitute bindings option ∧
      (∃ parts, HasParts option parts ∧
        substitute bindings option = parts.flatMap (Part.filledText bindings)) ∧
      substitute bindings (substitute bindings option) = substitute bindings option := by
  intro option bindings
  have hkeys : ∀ binding ∈ bindings.toList, '}' ∉ binding.1 := by decide
  have hvalues : ∀ binding ∈ bindings.toList, '$' ∉ binding.2 := by decide
  have hclosed : IsClosed option := by decide
  obtain ⟨horder, hnone, ⟨parts, hparts⟩, hkept, hagain⟩ :=
    substitute_of_isClosed bindings option hkeys hvalues hclosed
  exact ⟨hkeys, hvalues, hclosed, horder _ (List.reverse_perm _), hnone _ _ (by rfl),
    ⟨parts, hparts, hkept parts hparts⟩, hagain⟩

end LaunchOptions.Placeholder

import LaunchOptions.Proofs.OrderedMap
import LaunchOptions.Proofs.Pieces
import LaunchOptions.Proofs.Substitution
import Mathlib.Data.List.Find
import Mathlib.Data.List.Infix

/-!
# One pass over an option

A replacement is one pass from left to right that does not look into what it puts in. The
replacements of several keys, one after another, are one such pass together as long as none of them
makes a placeholder for a later one: by its value alone, or by the value and the text beside it.
-/

namespace LaunchOptions.Placeholder

variable {entries : List (Text × Text)} {key value t : Text}

/-- The first of some bindings whose placeholder begins a text. -/
def first? (entries : List (Text × Text)) (t : Text) : Option (Text × Text) :=
  entries.find? fun binding ↦ (ofKey binding.1).isPrefixOf t

/-- Put values in place of placeholders, from left to right and all at once, after `skip` characters
that are passed over. -/
def expandAfter (entries : List (Text × Text)) : Nat → Text → Text
  | _, [] => []
  | skip + 1, _ :: rest => expandAfter entries skip rest
  | 0, c :: rest =>
    match first? entries (c :: rest) with
    | some (key, value) => value ++ expandAfter entries ((ofKey key).length - 1) rest
    | none => c :: expandAfter entries 0 rest

/-- Put values in place of placeholders, from left to right and all at once. -/
def expand (entries : List (Text × Text)) (t : Text) : Text :=
  expandAfter entries 0 t

/-! ### The placeholder that begins a text -/

/-- No placeholder comes first if that of no key begins the text. -/
theorem first?_eq_none_iff :
    first? entries t = none ↔ ∀ binding ∈ entries, ¬ ofKey binding.1 <+: t := by
  simp [first?]

/-- The placeholder that comes first is one of a given key and begins the text. -/
theorem mem_of_first?_eq_some {binding : Text × Text} (h : first? entries t = some binding) :
    binding ∈ entries ∧ ofKey binding.1 <+: t :=
  ⟨List.mem_of_find?_eq_some h, by simpa using List.find?_some h⟩

/-- The first placeholder is the same if the same ones begin two texts. -/
theorem first?_congr {t' : Text}
    (h : ∀ binding ∈ entries, ofKey binding.1 <+: t ↔ ofKey binding.1 <+: t') :
    first? entries t = first? entries t' := by
  refine List.find?_congr fun binding hb ↦ ?_
  rw [Bool.eq_iff_iff, List.isPrefixOf_iff_prefix, List.isPrefixOf_iff_prefix]
  exact h binding hb

private theorem first?_filter {p : Text → Bool}
    (h : ∀ binding ∈ entries, ofKey binding.1 <+: t → p binding.1) :
    first? (entries.filter (p ·.1)) t = first? entries t := by
  rw [first?, List.find?_filter]
  refine List.find?_congr fun binding hb ↦ ?_
  rw [Bool.eq_iff_iff, decide_eq_true_eq, and_iff_right_iff_imp, List.isPrefixOf_iff_prefix]
  exact h binding hb

private theorem first?_append (earlier later : List (Text × Text)) (t : Text) :
    first? (earlier ++ later) t = (first? earlier t).or (first? later t) :=
  List.find?_append

/-! ### A pass, place by place -/

/-- Passing over characters drops them. -/
theorem expandAfter_eq_drop (entries : List (Text × Text)) (skip : Nat) (t : Text) :
    expandAfter entries skip t = expand entries (t.drop skip) := by
  induction t generalizing skip with
  | nil => simp [expandAfter, expand]
  | cons c rest ih =>
    cases skip with
    | zero => rfl
    | succ skip => simpa [expandAfter] using ih skip

private theorem expand_nil (entries : List (Text × Text)) : expand entries [] = [] := rfl

/-- The value of a placeholder takes its place, and the pass goes on after it. -/
theorem expand_ofKey_append {after : Text}
    (h : first? entries (ofKey key ++ after) = some (key, value)) :
    expand entries (ofKey key ++ after) = value ++ expand entries after := by
  have hcons : ofKey key ++ after = '$' :: ((ofKey key).tail ++ after) := rfl
  have hlength : (ofKey key).length - 1 = (ofKey key).tail.length := rfl
  rw [hcons] at h ⊢
  rw [expand, expandAfter, h]
  simp only [hlength, expandAfter_eq_drop, List.drop_left]

/-- A character at which no placeholder begins stays. -/
theorem expand_cons {c : Char} {rest : Text} (h : first? entries (c :: rest) = none) :
    expand entries (c :: rest) = c :: expand entries rest := by
  rw [expand, expandAfter, h]
  rfl

/-- What holds of the empty text, and carries over to a text from what is left of it after its first
placeholder or character, holds of every text. -/
@[elab_as_elim]
theorem expand_induction (entries : List (Text × Text)) {P : Text → Prop} (t : Text)
    (nil : P [])
    (placeholder : ∀ key value after, first? entries (ofKey key ++ after) = some (key, value) →
      P after → P (ofKey key ++ after))
    (char : ∀ c rest, first? entries (c :: rest) = none → P rest → P (c :: rest)) : P t := by
  induction hlength : t.length using Nat.strongRecOn generalizing t with
  | ind n ih =>
    cases t with
    | nil => exact nil
    | cons c rest =>
      cases hfirst : first? entries (c :: rest) with
      | none =>
        refine char c rest hfirst (ih _ ?_ rest rfl)
        rw [← hlength, List.length_cons]
        exact Nat.lt_succ_self _
      | some binding =>
        obtain ⟨after, hafter⟩ := (mem_of_first?_eq_some hfirst).2
        rw [← hafter] at hfirst hlength ⊢
        refine placeholder binding.1 binding.2 after hfirst (ih _ ?_ after rfl)
        rw [← hlength, List.length_append, ofKey, List.length_cons]
        omega

/-- One replacement is one pass. -/
theorem replace_eq_expand (key value t : Text) :
    replace (ofKey key) value t = expand [(key, value)] t := by
  rw [replace, expand]
  generalize 0 = skip
  induction t generalizing skip with
  | nil => rfl
  | cons c rest ih =>
    cases skip with
    | succ skip => exact ih skip
    | zero =>
      rw [replaceAfter, expandAfter]
      by_cases h : (ofKey key).isPrefixOf (c :: rest)
      · simp [first?, h, ih]
      · simp [first?, h, ih]

/-- A pass leaves alone what no placeholder begins in. -/
theorem expand_append {front back : Text}
    (h : ∀ binding ∈ entries, ∀ part, part ≠ [] → part <:+ front →
      ¬ ofKey binding.1 <+: part ++ back) :
    expand entries (front ++ back) = front ++ expand entries back := by
  induction front with
  | nil => rfl
  | cons c rest ih =>
    have hfirst : first? entries (c :: (rest ++ back)) = none :=
      first?_eq_none_iff.mpr fun binding hb ↦ h binding hb (c :: rest) (by simp) List.suffix_rfl
    rw [List.cons_append, expand_cons hfirst, List.cons_append, ih]
    exact fun binding hb part hpart hrest ↦
      h binding hb part hpart (hrest.trans (List.suffix_cons c rest))

/-- A pass leaves alone what has no placeholder. -/
theorem expand_eq_self (h : ∀ binding ∈ entries, ¬ ofKey binding.1 <:+: t) :
    expand entries t = t := by
  have happend : expand entries (t ++ []) = t ++ expand entries [] := by
    refine expand_append fun binding hb part _ hpart hbegins ↦ h binding hb ?_
    rw [List.append_nil] at hbegins
    exact hbegins.isInfix.trans hpart.isInfix
  simpa [expand_nil] using happend

/-! ### Placeholders that come about -/

/-- A text ends in the beginning of a placeholder. -/
def Opens (key t : Text) : Prop :=
  ∃ part, part ≠ [] ∧ part <:+ t ∧ part <+: ofKey key ∧ part ≠ ofKey key

/-- The value of a binding does not help to make the placeholder of a key where it is put into a
text: it neither has one nor ends in the beginning of one, and no beginning of one is right before
the place where it is put. -/
structure Inert (t : Text) (binding : Text × Text) (key : Text) : Prop where
  not_isInfix : ¬ ofKey key <:+: binding.2
  not_opens : ¬ Opens key binding.2
  not_opens_before (before : Text) : before ++ ofKey binding.1 <+: t → ¬ Opens key before

instance (key t : Text) : Decidable (Opens key t) :=
  decidable_of_iff (∃ part ∈ t.tails, part ≠ [] ∧ part <+: ofKey key ∧ part ≠ ofKey key) <| by
    simp only [List.mem_tails, Opens, and_left_comm]

instance (t : Text) (binding : Text × Text) (key : Text) : Decidable (Inert t binding key) :=
  decidable_of_iff (¬ ofKey key <:+: binding.2 ∧ ¬ Opens key binding.2 ∧
      ∀ before ∈ t.inits, before ++ ofKey binding.1 <+: t → ¬ Opens key before) <| by
    constructor
    · rintro ⟨hwithin, hopens, hbefore⟩
      refine ⟨hwithin, hopens, fun before hprefix ↦ hbefore before ?_ hprefix⟩
      exact (List.mem_inits before t).mpr ((List.prefix_append before _).trans hprefix)
    · exact fun h ↦ ⟨h.not_isInfix, h.not_opens, fun before _ ↦ h.not_opens_before before⟩

/-- A longer text opens what its end opens. -/
theorem Opens.of_isSuffix {t' : Text} (h : Opens key t) (ht : t <:+ t') : Opens key t' := by
  obtain ⟨part, hnil, hpart, hkey⟩ := h
  exact ⟨part, hnil, hpart.trans ht, hkey⟩

/-- A value that is inert in a text is so in the end of the text. -/
theorem Inert.of_isSuffix {t' : Text} {binding : Text × Text} (h : Inert t binding key)
    (ht : t' <:+ t) : Inert t' binding key where
  not_isInfix := h.not_isInfix
  not_opens := h.not_opens
  not_opens_before before hbefore hopens := by
    obtain ⟨front, rfl⟩ := ht
    refine h.not_opens_before (front ++ before) ?_ (hopens.of_isSuffix ⟨front, rfl⟩)
    rw [List.append_assoc]
    exact (List.prefix_append_right_inj front).mpr hbefore

/-- A pass leaves alone a text that has none of the placeholders and does not end in the beginning
of one. -/
theorem expand_append_of_not_opens {front back : Text}
    (h : ∀ binding ∈ entries, ¬ ofKey binding.1 <:+: front ∧ ¬ Opens binding.1 front) :
    expand entries (front ++ back) = front ++ expand entries back := by
  refine expand_append fun binding hb part hnil hpart hbegins ↦ ?_
  obtain ⟨hwithin, hopens⟩ := h binding hb
  rcases List.prefix_or_prefix_of_prefix hbegins (List.prefix_append part back) with hin | hout
  · exact hwithin (hin.isInfix.trans hpart.isInfix)
  · by_cases hwhole : part = ofKey binding.1
    · exact hwithin (hwhole ▸ hpart.isInfix)
    · exact hopens ⟨part, hnil, hpart, hout, hwhole⟩

/-- What begins a text after a pass began it before, unless a placeholder was replaced within it. -/
theorem isPrefix_of_isPrefix_expand {start : Text} (h : start <+: expand entries t) :
    start <+: t ∨ ∃ before after, ∃ binding ∈ entries, t = before ++ ofKey binding.1 ++ after ∧
      before <+: start ∧ before ≠ start := by
  induction t using expand_induction entries generalizing start with
  | nil => exact .inl h
  | placeholder key value after hfirst _ =>
    by_cases hnil : start = []
    · exact .inl (hnil ▸ List.nil_prefix)
    · exact .inr ⟨[], after, (key, value), (mem_of_first?_eq_some hfirst).1, rfl,
        List.nil_prefix, fun heq ↦ hnil heq.symm⟩
  | char c rest hfirst ih =>
    rw [expand_cons hfirst] at h
    rcases List.prefix_cons_iff.mp h with rfl | ⟨more, rfl, hmore⟩
    · exact .inl List.nil_prefix
    · rcases ih hmore with hrest | ⟨before, after, binding, hb, rfl, hbefore, hne⟩
      · exact .inl (List.cons_prefix_cons.mpr ⟨rfl, hrest⟩)
      · exact .inr ⟨c :: before, after, binding, hb, rfl, List.cons_prefix_cons.mpr ⟨rfl, hbefore⟩,
          fun heq ↦ hne (List.cons.inj heq).2⟩

/-! ### Passes one after another -/

variable {earlier later : List (Text × Text)}

/-- The values that a pass puts into a text do not help to make placeholders of other bindings. -/
def MakesNone (earlier later : List (Text × Text)) (t : Text) : Prop :=
  ∀ binding ∈ earlier, ofKey binding.1 <:+: t → ∀ other ∈ later, Inert t binding other.1

/-- Where a text makes no placeholder, its end makes none. -/
theorem MakesNone.of_isSuffix {t' : Text} (h : MakesNone earlier later t) (ht : t' <:+ t) :
    MakesNone earlier later t' :=
  fun binding hb hwithin other hother ↦
    (h binding hb (hwithin.trans ht.isInfix) other hother).of_isSuffix ht

/-- The only dollar sign of a placeholder is at its beginning, so a pass leaves it alone if none of
its own begins there. -/
theorem expand_ofKey_append_of_none {after : Text} (hkey : '$' ∉ key)
    (h : first? entries (ofKey key ++ after) = none) :
    expand entries (ofKey key ++ after) = ofKey key ++ expand entries after := by
  refine expand_append fun binding hb part hnil hpart hbegins ↦ ?_
  rcases List.suffix_cons_iff.mp hpart with rfl | hrest
  · exact first?_eq_none_iff.mp h binding hb hbegins
  · obtain ⟨c, more, rfl⟩ := List.exists_cons_of_ne_nil hnil
    obtain ⟨rfl, -⟩ : '$' = c ∧ _ := List.cons_prefix_cons.mp hbegins
    have hmem : '$' ∈ '{' :: (key ++ ['}']) := hrest.subset List.mem_cons_self
    simp [hkey] at hmem

/-- Before and after a pass, the same placeholders of other bindings begin a text, unless the pass
makes one of them. -/
theorem first?_expand (hkeys : ∀ binding ∈ later, '$' ∉ binding.1) (h : MakesNone earlier later t)
    (hfirst : first? earlier t = none) : first? later (expand earlier t) = first? later t := by
  refine first?_congr fun other hother ↦ ?_
  constructor
  · intro hbegins
    rcases isPrefix_of_isPrefix_expand hbegins with ht | ⟨before, after, binding, hb, rfl, hbefore,
      hne⟩
    · exact ht
    · have hopens : ¬ Opens other.1 before :=
        (h binding hb ⟨before, after, rfl⟩ other hother).not_opens_before before ⟨after, rfl⟩
      by_cases hnil : before = []
      · subst hnil
        exact absurd (List.prefix_append _ _) (first?_eq_none_iff.mp hfirst binding hb)
      · exact absurd ⟨before, hnil, List.suffix_rfl, hbefore, hne⟩ hopens
  · rintro ⟨after, rfl⟩
    rw [expand_ofKey_append_of_none (hkeys other hother) hfirst]
    exact List.prefix_append _ _

/-- Two passes are one if the first makes no placeholder for the second. -/
theorem expand_expand (hkeys : ∀ binding ∈ later, '$' ∉ binding.1)
    (h : MakesNone earlier later t) :
    expand later (expand earlier t) = expand (earlier ++ later) t := by
  induction t using expand_induction (earlier ++ later) with
  | nil => rfl
  | placeholder key value after hfirst ih =>
    rw [expand_ofKey_append hfirst]
    have ih := ih (h.of_isSuffix (List.suffix_append _ after))
    rw [first?_append] at hfirst
    cases hearlier : first? earlier (ofKey key ++ after) with
    | some binding =>
      -- No placeholder of the second pass begins in the value.
      rw [hearlier] at hfirst
      obtain rfl : binding = (key, value) := Option.some.inj hfirst
      have hinert := h _ (mem_of_first?_eq_some hearlier).1 ⟨[], after, rfl⟩
      rw [expand_ofKey_append hearlier, expand_append_of_not_opens, ih]
      exact fun other hother ↦ ⟨(hinert other hother).not_isInfix, (hinert other hother).not_opens⟩
    | none =>
      -- The first pass leaves the placeholder to the second one.
      rw [hearlier, Option.none_or] at hfirst
      have hkey := hkeys _ (mem_of_first?_eq_some hfirst).1
      have hlater := first?_expand hkeys h hearlier
      rw [expand_ofKey_append_of_none hkey hearlier] at hlater ⊢
      rw [expand_ofKey_append (hlater.trans hfirst), ih]
  | char c rest hfirst ih =>
    rw [expand_cons hfirst]
    have ih := ih (h.of_isSuffix (List.suffix_cons c rest))
    rw [first?_append, Option.or_eq_none_iff] at hfirst
    obtain ⟨hearlier, hlater⟩ := hfirst
    have hnone := first?_expand hkeys h hearlier
    rw [expand_cons hearlier] at hnone ⊢
    rw [expand_cons (hnone.trans hlater), ih]

/-! ### Substitution as one pass -/

variable {bindings : Bindings} {option : Text}

/-- The bindings whose placeholders an option has do not help to make placeholders of later keys. -/
def Settled (bindings : Bindings) (option : Text) : Prop :=
  bindings.toList.Pairwise fun binding later ↦
    ofKey binding.1 <:+: option → Inert option binding later.1

instance (bindings : Bindings) (option : Text) : Decidable (Settled bindings option) :=
  inferInstanceAs (Decidable (List.Pairwise _ _))

/-- After a pass for some bindings, the replacements for later ones make it a pass for all of
them. -/
theorem replaceEach_expand (hkeys : ∀ binding ∈ later, '$' ∉ binding.1)
    (h : (earlier ++ later).Pairwise fun binding other ↦
      ofKey binding.1 <:+: t → Inert t binding other.1) :
    replaceEach later (expand earlier t) =
      expand (earlier ++ later) t := by
  induction later generalizing earlier with
  | nil =>
    rw [List.append_nil]
    rfl
  | cons binding rest ih =>
    obtain ⟨hbinding, hrest⟩ := List.forall_mem_cons.mp hkeys
    have hpairs := (List.pairwise_append.mp h).2.2
    have hstep : expand [binding] (expand earlier t) = expand (earlier ++ [binding]) t := by
      refine expand_expand (List.forall_mem_singleton.mpr hbinding) ?_
      intro first hfirst hwithin other hother
      rw [List.mem_singleton.mp hother]
      exact hpairs first hfirst binding List.mem_cons_self hwithin
    rw [replaceEach_cons, replace_eq_expand, hstep]
    rw [List.append_cons earlier binding rest] at h ⊢
    exact ih hrest h

/-- An option has some `${` before a `}` exactly if it has some placeholder. -/
theorem occursIn_iff : occursIn t ↔ ∃ name, ofKey name <:+: t := by
  fun_induction occursIn t with
  | case1 rest =>
    rw [List.contains_iff_mem]
    constructor
    · intro hmem
      obtain ⟨name, after, rfl⟩ := List.append_of_mem hmem
      exact ⟨name, [], after, by simp [ofKey]⟩
    · rintro ⟨name, hwithin⟩
      have hmem : '}' ∈ '$' :: '{' :: rest := hwithin.subset (by simp [ofKey])
      simpa using hmem
  | case2 c rest hstart ih =>
    rw [ih]
    refine exists_congr fun name ↦ ?_
    rw [List.infix_cons_iff, or_iff_right]
    rintro ⟨after, hafter⟩
    obtain ⟨rfl, rfl⟩ := List.cons.inj hafter
    exact hstart _ rfl rfl
  | case3 => simp [ofKey]

/-- Substitution is one pass if it makes no placeholders for later keys. -/
theorem substitute_eq_expand_of_settled (hkeys : ∀ binding ∈ bindings.toList, '$' ∉ binding.1)
    (h : Settled bindings option) :
    substitute bindings option = expand bindings.toList option := by
  unfold substitute
  split
  · have hnone : expand [] option = option := expand_eq_self (by simp)
    have hfold : replaceEach bindings.toList (expand [] option) = expand bindings.toList option :=
      replaceEach_expand hkeys h
    rwa [hnone] at hfold
  · next hoccurs =>
    exact (expand_eq_self fun binding _ hwithin ↦ hoccurs (occursIn_iff.mpr ⟨_, hwithin⟩)).symm

/-- A pass depends only on the bindings whose placeholders a text has. -/
theorem expand_filter {p : Text → Bool}
    (h : ∀ binding ∈ entries, ofKey binding.1 <:+: t → p binding.1) :
    expand (entries.filter (p ·.1)) t = expand entries t := by
  induction t using expand_induction entries with
  | nil => rfl
  | placeholder key value after hfirst ih =>
    have hfilter := first?_filter fun binding hb hbegins ↦ h binding hb hbegins.isInfix
    rw [expand_ofKey_append hfirst, expand_ofKey_append (hfilter.trans hfirst), ih]
    exact fun binding hb hwithin ↦ h binding hb (hwithin.trans (List.suffix_append _ _).isInfix)
  | char c rest hfirst ih =>
    have hfilter := first?_filter fun binding hb hbegins ↦ h binding hb hbegins.isInfix
    rw [expand_cons hfirst, expand_cons (hfilter.trans hfirst), ih]
    exact fun binding hb hwithin ↦ h binding hb (hwithin.trans (List.suffix_cons c rest).isInfix)

/-- A text begins with one placeholder at most whose key has no brace. -/
theorem eq_of_ofKey_isPrefix {key' after : Text} (hkey : '}' ∉ key) (hkey' : '}' ∉ key')
    (h : ofKey key <+: ofKey key' ++ after) : key = key' := by
  have hname {name : Text} (hbrace : '}' ∉ name) (rest : Text) :
      ((ofKey name ++ rest).drop 2).takeWhile (· ≠ '}') = name := by
    have hdrop : (ofKey name ++ rest).drop 2 = name ++ ('}' :: rest) := by simp [ofKey]
    rw [hdrop, Text.takeWhile_ne_append hbrace]
  obtain ⟨rest, hrest⟩ := h
  rw [← hname hkey rest, hrest, hname hkey']

/-- The placeholder of a key is not changed by the replacements for other keys. -/
theorem replaceEach_ofKey (hdollar : '$' ∉ key) (hbrace : '}' ∉ key)
    (h : ∀ binding ∈ entries, binding.1 ≠ key ∧ '}' ∉ binding.1) :
    replaceEach entries (ofKey key) =
      ofKey key := by
  induction entries with
  | nil => rfl
  | cons binding rest ih =>
    obtain ⟨⟨hne, hb⟩, hrest⟩ := List.forall_mem_cons.mp h
    have hnone : first? [binding] (ofKey key ++ []) = none :=
      first?_eq_none_iff.mpr <| List.forall_mem_singleton.mpr fun hbegins ↦
        hne (eq_of_ofKey_isPrefix hb hbrace hbegins)
    have hstep := expand_ofKey_append_of_none hdollar hnone
    rw [List.append_nil, expand_nil, List.append_nil] at hstep
    rw [replaceEach_cons, replace_eq_expand, hstep, ih hrest]

/-- The value of a placeholder is looked into for the placeholders of later keys, and only of
these. -/
theorem substitute_ofKey (hkeys : ∀ binding ∈ bindings.toList, '$' ∉ binding.1 ∧ '}' ∉ binding.1)
    (h : bindings.toList = earlier ++ (key, value) :: later) :
    substitute bindings (ofKey key) =
      replaceEach later value := by
  have hoccurs : occursIn (ofKey key) := occursIn_iff.mpr ⟨key, List.infix_rfl⟩
  have hpairs := bindings.ascending
  rw [h] at hkeys hpairs
  obtain ⟨hdollar, hbrace⟩ := hkeys (key, value) (by simp)
  have hearlier : ∀ binding ∈ earlier, binding.1 ≠ key ∧ '}' ∉ binding.1 := by
    refine fun binding hb ↦ ⟨?_, (hkeys binding (by simp [hb])).2⟩
    rintro rfl
    have hlt : compare binding.1 binding.1 = .lt :=
      (List.pairwise_append.mp hpairs).2.2 binding hb (binding.1, value) (by simp)
    simp at hlt
  have hself : replace (ofKey key) value (ofKey key) = value := by
    have hfirst : first? [(key, value)] (ofKey key ++ []) = some (key, value) := by simp [first?]
    have hstep := expand_ofKey_append hfirst
    rwa [List.append_nil, expand_nil, List.append_nil, ← replace_eq_expand] at hstep
  rw [substitute, if_pos hoccurs, h, replaceEach_append,
    replaceEach_ofKey hdollar hbrace hearlier, replaceEach_cons, hself]

/-- Substitution is one pass that does not look into the values, and on which only the bindings have
an influence whose placeholders the option has, if the values make no placeholders of later keys. In
general the value of a placeholder is looked into for the placeholders of later keys. -/
theorem substitute_eq_expand (bindings : Bindings)
    (hkeys : ∀ binding ∈ bindings.toList, '$' ∉ binding.1 ∧ '}' ∉ binding.1) :
    (∀ option, Settled bindings option →
      substitute bindings option = expand bindings.toList option ∧
      ∀ other : Bindings, (∀ binding ∈ other.toList, '$' ∉ binding.1) → Settled other option →
        (∀ key, ofKey key <:+: option → other.get? key = bindings.get? key) →
        substitute other option = substitute bindings option) ∧
    ∀ earlier key value later, bindings.toList = earlier ++ (key, value) :: later →
      substitute bindings (ofKey key) =
        replaceEach later value := by
  refine ⟨fun option h ↦ ?_, fun earlier key value later ↦ substitute_ofKey hkeys⟩
  have hpass := substitute_eq_expand_of_settled (fun binding hb ↦ (hkeys binding hb).1) h
  refine ⟨hpass, fun other hother hsettled hsame ↦ ?_⟩
  let occurs (key : Text) : Bool := ofKey key <:+: option
  have hfilter : other.toList.filter (occurs ·.1) = bindings.toList.filter (occurs ·.1) :=
    OrderedMap.filter_toList_congr fun key hkey ↦ hsame key (of_decide_eq_true hkey)
  have hoccurs (entries : List (Text × Text)) :
      expand (entries.filter (occurs ·.1)) option = expand entries option :=
    expand_filter fun _ _ hwithin ↦ decide_eq_true hwithin
  rw [substitute_eq_expand_of_settled hother hsettled, hpass, ← hoccurs, hfilter, hoccurs]

/-- Two placeholders in an option, of which one has a dollar sign in its value, and a binding that
the option does not use; and a value that is the placeholder of a later key. -/
theorem substitute_eq_expand_dollar :
    let option := ['-', 'D'] ++ ofKey ['P'] ++ [':'] ++ ofKey ['Q']
    let bindings : Bindings := .ofList [(['P'], ['x', '$', '1']), (['Q'], ['y'])]
    let nested : Bindings := .ofList [(['a'], ofKey ['b']), (['b'], ['x'])]
    Settled bindings option ∧ Settled (bindings.insert ['R'] ['z']) option ∧
      substitute bindings option = expand bindings.toList option ∧
      substitute (bindings.insert ['R'] ['z']) option = substitute bindings option ∧
      substitute nested (ofKey ['a']) = replace (ofKey ['b']) ['x'] (ofKey ['b']) := by
  intro option bindings nested
  have hsettled : Settled bindings option := by decide
  have hmore : Settled (bindings.insert ['R'] ['z']) option := by decide
  obtain ⟨hpass, -⟩ := substitute_eq_expand bindings (by decide)
  obtain ⟨heq, hother⟩ := hpass option hsettled
  obtain ⟨-, hlone⟩ := substitute_eq_expand nested (by decide)
  refine ⟨hsettled, hmore, heq, hother _ (by decide) hmore fun key hkey ↦ ?_,
    hlone [] ['a'] (ofKey ['b']) [(['b'], ['x'])] (by decide)⟩
  have hne : ¬ compare ['R'] key = .eq := by
    intro hcompare
    obtain rfl : ['R'] = key := Std.LawfulEqOrd.eq_of_compare hcompare
    exact absurd hkey (by decide)
  rw [OrderedMap.get?_insert, if_neg (by simpa using hne)]

/-- A value that is a placeholder is not what one pass gives. -/
theorem substitute_ne_expand :
    ¬ ∀ (bindings : Bindings) (option : Text),
      (∀ binding ∈ bindings.toList, '$' ∉ binding.1 ∧ '{' ∉ binding.1 ∧ '}' ∉ binding.1) →
      substitute bindings option = expand bindings.toList option := by
  intro h
  have heq := h (.ofList [(['a'], ofKey ['b']), (['b'], ['x'])]) (['-', 'D'] ++ ofKey ['a'])
    (by decide)
  exact absurd heq (by decide)

end LaunchOptions.Placeholder

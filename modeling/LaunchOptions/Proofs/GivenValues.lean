import LaunchOptions.Proofs.Pieces
import LaunchOptions.Proofs.VerboseSwitch
import Mathlib.Data.List.Forall2
import Mathlib.Data.List.TakeWhile

/-!
# The values of a command line

Which values a command line gives to a slot is said by its items alone: a named slot has the value
within its own item, or else the word that follows. A request holds exactly the values that are
given: the steps of reading keep count of what is given so far, what is pending, and what the
remaining items give.
-/

namespace LaunchOptions.CommandLine

/-- The text is `key`, `=` and the value, where white space around the key does not count. The key
has no `=` in it. -/
def Binds (t key value : Text) : Prop :=
  ∃ before, t = before ++ '=' :: value ∧ '=' ∉ before ∧ Text.trim before = key

/-- The first `=` ends the key. -/
theorem binds_iff {t key value : Text} :
    Binds t key value ↔
      t.dropWhile (· ≠ '=') = '=' :: value ∧ Text.trim (t.takeWhile (· ≠ '=')) = key := by
  constructor
  · rintro ⟨before, rfl, hfree, rfl⟩
    rw [Text.dropWhile_ne_append hfree, Text.takeWhile_ne_append hfree]
    exact ⟨rfl, rfl⟩
  · rintro ⟨hdrop, rfl⟩
    refine ⟨t.takeWhile (· ≠ '='), ?_, ?_, rfl⟩
    · rw [← hdrop, List.takeWhile_append_dropWhile]
    · intro hmem
      simpa using List.mem_takeWhile_imp hmem

/-- A text is accepted as a binding exactly if it binds a key that is not empty. -/
theorem binding_eq_ok_iff {t key value : Text} :
    binding t = .ok (key, value) ↔ Binds t key value ∧ key ≠ [] := by
  rw [binds_iff, binding]
  cases hdrop : t.dropWhile (· ≠ '=') with
  | nil => simp
  | cons c rest =>
    have hc : c = '=' := by
      have hhead := List.head?_dropWhile_not (· ≠ '=') t
      rw [hdrop] at hhead
      simpa using hhead
    subst hc
    dsimp only
    split
    · next hkey =>
      refine ⟨by rintro ⟨⟩, ?_⟩
      rintro ⟨⟨-, rfl⟩, hne⟩
      exact absurd hkey hne
    · next hkey =>
      constructor
      · rintro ⟨⟩
        exact ⟨⟨rfl, rfl⟩, hkey⟩
      · rintro ⟨⟨hvalue, rfl⟩, -⟩
        rw [(List.cons.inj hvalue).2]

namespace Item

/-- A value of a slot, as far as it is one of the slot in question. -/
def valueFor (slot ofSlot : Slot) (value : Text) : List Text :=
  if ofSlot = slot then [value] else []

/-- The values that items give to a slot. A word that is no value of the slot before it is one of
the path. -/
def values (slot : Slot) : List Item → List Text
  | [] => []
  | .slot s (some value) :: rest => valueFor slot s value ++ values slot rest
  | .slot s none :: .word t :: rest => valueFor slot s t ++ values slot rest
  | .word t :: rest | .operand t :: rest => valueFor slot .path t ++ values slot rest
  | _ :: rest => values slot rest

end Item

/-- The values that a command line gives to a slot, in their order. -/
def givenValues (slot : Slot) (arguments : List Text) : List Text :=
  Item.values slot (Item.ofArguments arguments)

namespace Progress

open Item (values valueFor)

/-- Some values have been given to a slot, and nothing else. Of several paths the last one counts,
but no more than one is accepted. -/
def Holds (progress : Progress) (texts : List Text) : Slot → Prop
  | .path => progress.path.map Path.spelling = texts.getLast?
  | .javaVersion => progress.javaVersion.toList = texts
  | .substitute => texts.Forall₂ (fun t pair ↦ binding t = .ok pair) progress.bindings
  | .config => progress.config.toList.map Path.spelling = texts

/-- The values that what is pending and the items to come give to a slot. -/
def due (progress : Progress) (slot : Slot) (items : List Item) : List Text :=
  match progress.pending with
  | none => values slot items
  | some (s, some value) => valueFor slot s value ++ values slot items
  | some (s, none) => values slot (.slot s none :: items)

/-- The values given to a slot so far, and those to come, are `all`. -/
def Totals (progress : Progress) (slot : Slot) (items : List Item) (all : List Text) : Prop :=
  ∃ texts, progress.Holds texts slot ∧ all = texts ++ progress.due slot items

variable {progress next : Progress} {slot s : Slot} {items : List Item} {all texts : List Text}

private theorem holds_pending (pending : Option (Slot × Option Text)) :
    { progress with pending }.Holds texts slot ↔ progress.Holds texts slot := by
  cases slot <;> rfl

/-- Filling a slot adds a value to it and to no other. -/
theorem holds_fill {value : Text} (h : progress.fill s value = .ok next)
    (hold : progress.Holds texts slot) :
    next.Holds (texts ++ valueFor slot s value) slot ∧ next.pending = progress.pending := by
  cases s with
  | path =>
    simp only [fill] at h
    split at h
    · cases h
    · cases h
      refine ⟨?_, rfl⟩
      cases slot <;> simp_all [Holds, valueFor]
  | javaVersion =>
    simp only [fill] at h
    split at h
    · cases h
    · next hnone =>
      cases h
      refine ⟨?_, rfl⟩
      rw [Bool.not_eq_true, Option.isSome_eq_false_iff, Option.isNone_iff_eq_none] at hnone
      cases slot <;> simp_all [Holds, valueFor]
  | substitute =>
    simp only [fill] at h
    split at h
    · next pair hpair =>
      cases h
      refine ⟨?_, rfl⟩
      cases slot with
      | substitute => exact List.rel_append hold (.cons hpair .nil)
      | path => simpa [Holds, valueFor] using hold
      | javaVersion => simpa [Holds, valueFor] using hold
      | config => simpa [Holds, valueFor] using hold
    · cases h
  | config =>
    simp only [fill] at h
    split at h
    · cases h
    · next hnone =>
      split at h
      · cases h
      · cases h
        refine ⟨?_, rfl⟩
        rw [Bool.not_eq_true, Option.isSome_eq_false_iff, Option.isNone_iff_eq_none] at hnone
        cases slot <;> simp_all [Holds, valueFor]

/-- After settling nothing is pending, and the values are the same in all. -/
theorem totals_settle (h : progress.settle = .ok next) (ht : progress.Totals slot items all) :
    next.Totals slot items all ∧ next.pending = none := by
  obtain ⟨texts, hold, rfl⟩ := ht
  unfold settle at h
  split at h
  · next hnone =>
    cases h
    exact ⟨⟨texts, hold, rfl⟩, hnone⟩
  · cases h
  · next s value hsome =>
    obtain ⟨hnext, hpending⟩ := holds_fill h ((holds_pending none).mpr hold)
    refine ⟨⟨_, hnext, ?_⟩, hpending⟩
    simp only [due, hsome, hpending, List.append_assoc]

/-- With nothing pending, the values to come are those of the items. -/
theorem due_of_pending_eq_none (h : progress.pending = none) :
    progress.due slot items = values slot items := by
  simp only [due, h]

private theorem totals_operand {t : Text} (h : progress.operand t = .ok next)
    (ht : progress.Totals slot (.operand t :: items) all) : next.Totals slot items all := by
  unfold operand at h
  split at h
  · cases h
  · obtain ⟨settled, hsettle, h⟩ := exists_of_bind h
    cases h
    obtain ⟨⟨texts, hold, rfl⟩, hnone⟩ := totals_settle hsettle ht
    refine ⟨texts, (holds_pending _).mpr hold, ?_⟩
    rw [due_of_pending_eq_none hnone]
    rfl

private theorem totals_word {t : Text} (h : progress.word t = .ok next)
    (ht : progress.Totals slot (.word t :: items) all) : next.Totals slot items all := by
  unfold word at h
  split at h
  · next s hwaiting =>
    cases h
    obtain ⟨texts, hold, rfl⟩ := ht
    refine ⟨texts, (holds_pending _).mpr hold, ?_⟩
    simp only [due, hwaiting, values]
  · next hother =>
    -- The word is an operand, so it counts as one.
    refine totals_operand h ?_
    obtain ⟨texts, hold, rfl⟩ := ht
    refine ⟨texts, hold, ?_⟩
    unfold due
    split
    · rfl
    · rfl
    · next s hwaiting => exact absurd hwaiting (hother s)

private theorem totals_named {value : Option Text} (h : progress.named s value = .ok next)
    (ht : progress.Totals slot (.slot s value :: items) all) : next.Totals slot items all := by
  unfold named at h
  obtain ⟨settled, hsettle, h⟩ := exists_of_bind h
  obtain ⟨⟨texts, hold, rfl⟩, hnone⟩ := totals_settle hsettle ht
  rw [due_of_pending_eq_none hnone]
  cases value with
  | none =>
    cases h
    exact ⟨texts, (holds_pending _).mpr hold, rfl⟩
  | some value =>
    obtain ⟨hnext, hpending⟩ := holds_fill h hold
    refine ⟨_, hnext, ?_⟩
    rw [due_of_pending_eq_none (hpending.trans hnone), values, List.append_assoc]

private theorem totals_verbose {settled : Progress} (hsettle : progress.settle = .ok settled)
    (h : settled.beVerbose = .ok next)
    (ht : progress.Totals slot (.switch .verbose :: items) all) : next.Totals slot items all := by
  obtain ⟨⟨texts, hold, rfl⟩, hnone⟩ := totals_settle hsettle ht
  unfold beVerbose at h
  split at h
  · cases h
  · cases h
    have hloud : { settled with verbose := true }.Holds texts slot := by
      cases slot <;> exact hold
    have hdue : { settled with verbose := true }.due slot items = values slot items :=
      due_of_pending_eq_none hnone
    refine ⟨texts, hloud, ?_⟩
    rw [due_of_pending_eq_none hnone, hdue]
    rfl

/-- The progress of a whole command line that asks for a run. -/
def ofRequest (request : Request) : Progress where
  path := some request.path
  javaVersion := request.javaVersion
  bindings := request.bindings
  config := request.config
  verbose := request.verbose

private theorem holds_request {request : Request} (h : progress.request = .ok request)
    (ht : progress.Totals slot [] all) : (ofRequest request).Holds all slot := by
  obtain ⟨settled, hsettle, h⟩ := exists_of_bind h
  obtain ⟨⟨texts, hold, rfl⟩, hnone⟩ := totals_settle hsettle ht
  rw [due_of_pending_eq_none hnone, values, List.append_nil]
  split at h
  · cases h
  · next path hpath =>
    cases h
    cases slot with
    | path => simpa [Holds, ofRequest, hpath] using hold
    | javaVersion => exact hold
    | substitute => exact hold
    | config => exact hold

/-- The request that some items make holds all values that are given to its slots. -/
theorem holds_invocation {request : Request} (h : progress.invocation items = .ok (.run request))
    (ht : progress.Totals slot items all) : (ofRequest request).Holds all slot := by
  induction items generalizing progress with
  | nil =>
    obtain ⟨request', hrequest, h⟩ := exists_of_bind h
    cases h
    exact holds_request hrequest ht
  | cons item rest ih =>
    cases item with
    | switch switch =>
      cases switch with
      | verbose =>
        obtain ⟨settled, hsettle, h⟩ := exists_of_bind h
        obtain ⟨next, hnext, h⟩ := exists_of_bind h
        exact ih h (totals_verbose hsettle hnext ht)
      | help =>
        obtain ⟨settled, -, h⟩ := exists_of_bind h
        cases h
      | version =>
        obtain ⟨settled, -, h⟩ := exists_of_bind h
        cases h
    | switchWithValue switch value => cases h
    | slot s value =>
      obtain ⟨next, hnext, h⟩ := exists_of_bind h
      exact ih h (totals_named hnext ht)
    | word t =>
      obtain ⟨next, hnext, h⟩ := exists_of_bind h
      exact ih h (totals_word hnext ht)
    | operand t =>
      obtain ⟨next, hnext, h⟩ := exists_of_bind h
      exact ih h (totals_operand hnext ht)
    | unknown shown => cases h

end Progress

/-- A request holds the values that its command line gives. -/
theorem holds_givenValues {arguments : List Text} {request : Request}
    (h : Invocation.ofArguments arguments = .ok (.run request)) (slot : Slot) :
    (Progress.ofRequest request).Holds (givenValues slot arguments) slot := by
  refine Progress.holds_invocation h ⟨[], ?_, rfl⟩
  cases slot with
  | path => rfl
  | javaVersion => rfl
  | substitute => exact .nil
  | config => rfl

end LaunchOptions.CommandLine

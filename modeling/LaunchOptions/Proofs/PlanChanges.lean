import LaunchOptions.Assembly
import LaunchOptions.Proofs.OrderedMap
import Mathlib.Data.List.DropRight

/-!
# Changes to a plan

A plan keeps of its changes the last version, the last overrides, and for each key the last value
since all bindings were last replaced, or else the value among those. So changes to different parts
of a plan may come in any order.
-/

namespace LaunchOptions.Assembly

namespace Change

/-- The version that a change sets. -/
def version? : Change → Option Nat
  | .version v => some v
  | _ => none

/-- The overrides that a change sets. -/
def overrides? : Change → Option (List Text)
  | .overrides tokens => some tokens
  | _ => none

/-- The bindings that a change puts in place of all others. -/
def bindings? : Change → Option Bindings
  | .bindings all => some all
  | _ => none

private theorem eq_of_bindings? {change : Change} {all : Bindings}
    (h : change.bindings? = some all) :
    change = .bindings all := by
  cases change with
  | bindings bindings => exact congrArg Change.bindings (Option.some.inj h)
  | version _ => cases h
  | overrides _ => cases h
  | bind _ _ => cases h

/-- The value that a change binds a single key to. -/
def valueOf? (key : Text) : Change → Option Text
  | .bind k value => if k = key then some value else none
  | _ => none

/-- Whether a change is one to the bindings. -/
def isBinding : Change → Bool
  | .bindings _ | .bind .. => true
  | _ => false

end Change

/-- The last version that is set. -/
def lastVersion? (changes : List Change) : Option Nat :=
  (changes.filterMap Change.version?).getLast?

/-- The last overrides that are set. -/
def lastOverrides? (changes : List Change) : Option (List Text) :=
  (changes.filterMap Change.overrides?).getLast?

/-- The last bindings that are put in place of all others. -/
def lastBindings? (changes : List Change) : Option Bindings :=
  (changes.filterMap Change.bindings?).getLast?

/-- The changes since all bindings were last replaced. -/
def sinceBindings (changes : List Change) : List Change :=
  changes.rtakeWhile fun change ↦ change.bindings?.isNone

/-- The value that a key is bound to in the end: the last one that it is bound to by itself since
all bindings were last replaced, or else the one among those. -/
def lastValue? (changes : List Change) (key : Text) : Option Text :=
  ((sinceBindings changes).filterMap (Change.valueOf? key)).getLast?.or
    ((lastBindings? changes).bind (·.get? key))

/-- The plan for a root that holds what the last changes of each kind say, and nothing else. -/
structure IsCanonical (root : Path) (changes : List Change) (plan : Assembly) : Prop where
  root : plan.root = root
  version : plan.version = (lastVersion? changes).getD 8
  overrides : plan.overrides = (lastOverrides? changes).getD []
  bindings : ∀ key, plan.bindings.get? key = lastValue? changes key

/-! ### One more change -/

private theorem getLast?_filterMap_concat {α β : Type} (f : α → Option β) (l : List α) (a : α) :
    ((l ++ [a]).filterMap f).getLast? = (f a).or (l.filterMap f).getLast? := by
  rw [List.filterMap_append]
  cases h : f a <;> simp [h]

private theorem lastVersion?_concat (changes : List Change) (change : Change) :
    lastVersion? (changes ++ [change]) = change.version?.or (lastVersion? changes) :=
  getLast?_filterMap_concat ..

private theorem lastOverrides?_concat (changes : List Change) (change : Change) :
    lastOverrides? (changes ++ [change]) = change.overrides?.or (lastOverrides? changes) :=
  getLast?_filterMap_concat ..

private theorem lastBindings?_concat (changes : List Change) (change : Change) :
    lastBindings? (changes ++ [change]) = change.bindings?.or (lastBindings? changes) :=
  getLast?_filterMap_concat ..

/-- After all bindings are replaced, a key has the value that it has among the new ones. -/
theorem lastValue?_concat_bindings (changes : List Change) (bindings : Bindings) (key : Text) :
    lastValue? (changes ++ [.bindings bindings]) key = bindings.get? key := by
  have hsince : sinceBindings (changes ++ [.bindings bindings]) = [] :=
    List.rtakeWhile_concat_neg _ _ _ (by simp [Change.bindings?])
  rw [lastValue?, hsince, lastBindings?_concat]
  rfl

/-- Any other change gives a value at most to the key that it binds. -/
theorem lastValue?_concat {change : Change} (h : change.bindings? = none) (changes : List Change)
    (key : Text) :
    lastValue? (changes ++ [change]) key = (change.valueOf? key).or (lastValue? changes key) := by
  have hsince : sinceBindings (changes ++ [change]) = sinceBindings changes ++ [change] :=
    List.rtakeWhile_concat_pos _ _ _ (by simp [h])
  rw [lastValue?, hsince, getLast?_filterMap_concat, lastBindings?_concat, h, Option.none_or,
    Option.or_assoc, lastValue?]

private theorem root_apply (plan : Assembly) (change : Change) :
    (plan.apply change).root = plan.root := by
  cases change <;> rfl

private theorem version_apply (plan : Assembly) (change : Change) :
    (plan.apply change).version = change.version?.getD plan.version := by
  cases change <;> rfl

private theorem overrides_apply (plan : Assembly) (change : Change) :
    (plan.apply change).overrides = change.overrides?.getD plan.overrides := by
  cases change <;> rfl

private theorem get?_bindings_apply {change : Change} (h : change.bindings? = none)
    (plan : Assembly)
    (key : Text) :
    (plan.apply change).bindings.get? key =
      (change.valueOf? key).or (plan.bindings.get? key) := by
  cases change with
  | version version => rfl
  | overrides tokens => rfl
  | bindings bindings => cases h
  | bind k value =>
    have hfound : (plan.bindings.insert k value).get? key =
        if compare k key == .eq then some value else plan.bindings.get? key :=
      OrderedMap.get?_insert ..
    refine hfound.trans ?_
    by_cases hk : k = key
    · simp [Change.valueOf?, hk]
    · have hne : compare k key ≠ .eq := by simpa using hk
      simp [Change.valueOf?, hk, hne]

/-- A plan stays canonical with one more change. -/
theorem IsCanonical.apply {root : Path} {changes : List Change} {plan : Assembly}
    (h : IsCanonical root changes plan) (change : Change) :
    IsCanonical root (changes ++ [change]) (plan.apply change) where
  root := by rw [root_apply, h.root]
  version := by rw [version_apply, lastVersion?_concat, Option.getD_or, h.version]
  overrides := by rw [overrides_apply, lastOverrides?_concat, Option.getD_or, h.overrides]
  bindings := by
    intro key
    cases hbindings : change.bindings? with
    | none => rw [get?_bindings_apply hbindings, lastValue?_concat hbindings, h.bindings key]
    | some bindings =>
      obtain rfl : change = .bindings bindings := Change.eq_of_bindings? hbindings
      rw [lastValue?_concat_bindings]
      rfl

/-! ### All changes -/

/-- The last change comes last. -/
theorem applyAll_concat (plan : Assembly) (changes : List Change) (change : Change) :
    plan.applyAll (changes ++ [change]) = (plan.applyAll changes).apply change := by
  rw [applyAll, applyAll, List.foldl_concat]

/-- The plan after some changes is the canonical one. -/
theorem isCanonical_applyAll (root : Path) (changes : List Change) :
    IsCanonical root changes (applyAll { root } changes) := by
  induction changes using List.reverseRecOn with
  | nil => exact ⟨rfl, rfl, rfl, fun _ ↦ rfl⟩
  | append_singleton changes change ih =>
    rw [applyAll_concat]
    exact ih.apply change

/-- There is only one canonical plan. -/
theorem IsCanonical.unique {root : Path} {changes : List Change} {plan plan' : Assembly}
    (h : IsCanonical root changes plan) (h' : IsCanonical root changes plan') : plan = plan' := by
  have hbindings : plan.bindings = plan'.bindings := by
    apply OrderedMap.ext_get?
    intro key value
    rw [h.bindings key, h'.bindings key]
  cases plan
  cases plan'
  simp only [Assembly.mk.injEq]
  exact ⟨h.root.trans h'.root.symm, h.version.trans h'.version.symm,
    h.overrides.trans h'.overrides.symm, hbindings⟩

/-- Only the changes to bindings matter to what a key is bound to. -/
theorem bindings_applyAll_filter (plan : Assembly) (changes : List Change) :
    (plan.applyAll (changes.filter Change.isBinding)).bindings =
      (plan.applyAll changes).bindings := by
  induction changes using List.reverseRecOn with
  | nil => rfl
  | append_singleton changes change ih =>
    rw [List.filter_append, applyAll_concat]
    cases change with
    | version v =>
      rw [show [Change.version v].filter Change.isBinding = [] from rfl, List.append_nil]
      exact ih
    | overrides tokens =>
      rw [show [Change.overrides tokens].filter Change.isBinding = [] from rfl, List.append_nil]
      exact ih
    | bindings bindings =>
      rw [show [Change.bindings bindings].filter Change.isBinding = [.bindings bindings] from rfl,
        applyAll_concat]
      rfl
    | bind k value =>
      rw [show [Change.bind k value].filter Change.isBinding = [.bind k value] from rfl,
        applyAll_concat, apply, apply, ih]

/-- Changes of which those to each part are the same, in the same order, make the same plan. -/
theorem applyAll_congr (root : Path) {changes changes' : List Change}
    (hversion : changes.filterMap Change.version? = changes'.filterMap Change.version?)
    (hoverrides : changes.filterMap Change.overrides? = changes'.filterMap Change.overrides?)
    (hbindings : changes.filter Change.isBinding = changes'.filter Change.isBinding) :
    applyAll { root } changes = applyAll { root } changes' := by
  have h := isCanonical_applyAll root changes
  have h' := isCanonical_applyAll root changes'
  refine h.unique ⟨h'.root, ?_, ?_, fun key ↦ ?_⟩
  · rw [h'.version, lastVersion?, lastVersion?, hversion]
  · rw [h'.overrides, lastOverrides?, lastOverrides?, hoverrides]
  · rw [← h.bindings key, ← bindings_applyAll_filter, ← bindings_applyAll_filter _ changes,
      hbindings]

/-- The last change of each kind wins. A plan after any changes is the canonical one: it has the
last version, or else 8, the last overrides, or else none, and it binds each key to the last value
since all bindings were last replaced, or else to the one among those. So what is built does not
depend on the order in which changes to different parts are made. -/
theorem build_applyAll (root : Path) (changes : List Change) :
    IsCanonical root changes (applyAll { root } changes) ∧
    (∀ plan, IsCanonical root changes plan → ∀ view,
      (applyAll { root } changes).build view = plan.build view) ∧
    ∀ changes' : List Change,
      changes.filterMap Change.version? = changes'.filterMap Change.version? →
      changes.filterMap Change.overrides? = changes'.filterMap Change.overrides? →
      changes.filter Change.isBinding = changes'.filter Change.isBinding →
      ∀ view, (applyAll { root } changes).build view = (applyAll { root } changes').build view := by
  refine ⟨isCanonical_applyAll root changes, ?_, ?_⟩
  · intro plan hplan view
    rw [(isCanonical_applyAll root changes).unique hplan]
  · intro changes' hversion hoverrides hbindings view
    rw [applyAll_congr root hversion hoverrides hbindings]

/-- A binding from before all bindings are replaced is gone, in whichever order the version and the
overrides are set around. -/
theorem build_applyAll_reordered :
    (applyAll { root := ⟨"conf".toList⟩ }
      [.bind "a".toList "1".toList, .version 11, .bindings (.ofList [("b".toList, "2".toList)]),
        .overrides ["${a}${b}".toList], .version 17, .bind "b".toList "3".toList]).build .nothing =
      (applyAll { root := ⟨"conf".toList⟩ }
        [.overrides ["${a}${b}".toList], .version 11, .version 17, .bind "a".toList "1".toList,
          .bindings (.ofList [("b".toList, "2".toList)]),
          .bind "b".toList "3".toList]).build .nothing ∧
    (applyAll { root := ⟨"conf".toList⟩ }
      [.bind "a".toList "1".toList, .version 11, .bindings (.ofList [("b".toList, "2".toList)]),
        .overrides ["${a}${b}".toList], .version 17, .bind "b".toList "3".toList]).build .nothing =
      .ok ["${a}3".toList] :=
  ⟨(build_applyAll ⟨"conf".toList⟩ _).2.2 _ rfl rfl rfl .nothing, rfl⟩

end LaunchOptions.Assembly

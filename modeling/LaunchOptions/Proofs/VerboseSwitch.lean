import LaunchOptions.CommandLine.Arguments

/-!
# The switch for more logging

A command line that is accepted without the switch is accepted with it in front, and asks for the
same but for the logging.
-/

namespace LaunchOptions.CommandLine

namespace Progress

/-- The progress with more logging asked for. -/
def loud (progress : Progress) : Progress := { progress with verbose := true }

/-! ### Each step goes on as without the switch -/

private theorem fill_loud (progress : Progress) (slot : Slot) (value : Text) :
    progress.loud.fill slot value = (progress.fill slot value).map loud := by
  cases slot with
  | path =>
    by_cases hv : value = [] <;> simp [fill, loud, hv, Except.map]
  | javaVersion =>
    by_cases hs : progress.javaVersion.isSome <;> simp [fill, loud, hs, Except.map]
  | substitute =>
    cases hb : binding value <;> simp [fill, loud, hb, Except.map]
  | config =>
    by_cases hs : progress.config.isSome
    · simp [fill, loud, hs, Except.map]
    · by_cases hv : value = [] <;> simp [fill, loud, hs, hv, Except.map]

private theorem settle_loud (progress : Progress) :
    progress.loud.settle = progress.settle.map loud := by
  cases hp : progress.pending with
  | none => simp [settle, loud, hp, Except.map]
  | some waiting =>
    obtain ⟨slot, value⟩ := waiting
    cases value with
    | none => simp [settle, loud, hp, Except.map]
    | some value =>
      have hfill := fill_loud { progress with pending := none } slot value
      simpa [settle, loud, hp] using hfill

private theorem operand_loud (progress : Progress) (t : Text) :
    progress.loud.operand t = (progress.operand t).map loud := by
  have hsame : progress.loud.hasOperand = progress.hasOperand := rfl
  unfold operand
  rw [hsame, settle_loud]
  split
  · rfl
  · cases progress.settle <;> rfl

private theorem word_loud (progress : Progress) (t : Text) :
    progress.loud.word t = (progress.word t).map loud := by
  have hsame : progress.loud.pending = progress.pending := rfl
  unfold word
  rw [hsame]
  split
  · rfl
  · exact operand_loud progress t

private theorem named_loud (progress : Progress) (slot : Slot) (value : Option Text) :
    progress.loud.named slot value = (progress.named slot value).map loud := by
  unfold named
  rw [settle_loud]
  cases progress.settle with
  | error e => rfl
  | ok settled =>
    cases value with
    | none => rfl
    | some value => exact fill_loud settled slot value

private theorem request_loud (progress : Progress) :
    progress.loud.request =
      progress.request.map fun request ↦ { request with verbose := true } := by
  unfold request
  rw [settle_loud]
  cases progress.settle with
  | error e => rfl
  | ok settled =>
    cases hp : settled.path with
    | none => simp [bind, Except.bind, Except.map, loud, hp]
    | some path => simp [bind, Except.bind, Except.map, loud, hp, pure, Except.pure]

/-! ### The items of a command line -/

/-- A step that succeeds hands its result on. -/
theorem exists_of_bind {α β : Type} {step : Except UsageError α} {next : α → Except UsageError β}
    {b : β} (h : step >>= next = .ok b) : ∃ a, step = .ok a ∧ next a = .ok b := by
  cases step with
  | error e => cases h
  | ok a => exact ⟨a, rfl, h⟩

private theorem exists_of_bind_loud {step : Except UsageError Progress}
    {next : Progress → Except UsageError Invocation} {asked : Invocation}
    (h : step.map loud >>= next = .ok asked) :
    ∃ progress, step = .ok progress ∧ next progress.loud = .ok asked := by
  cases step with
  | error e => cases h
  | ok progress => exact ⟨progress, rfl, h⟩

/-- A request that is made with more logging asked for asks for it. -/
theorem verbose_of_invocation_loud {progress : Progress} {items : List Item} {request : Request}
    (h : progress.loud.invocation items = .ok (.run request)) : request.verbose = true := by
  induction items generalizing progress with
  | nil =>
    rw [invocation, request_loud] at h
    cases hr : progress.request with
    | error e =>
      rw [hr] at h
      cases h
    | ok r =>
      rw [hr] at h
      cases h
      rfl
  | cons item rest ih =>
    cases item with
    | switch s =>
      cases s with
      | verbose =>
        rw [invocation, settle_loud] at h
        obtain ⟨settled, -, h⟩ := exists_of_bind_loud h
        -- Being asked for twice, the switch is refused.
        cases h
      | help =>
        rw [invocation, settle_loud] at h
        obtain ⟨settled, -, h⟩ := exists_of_bind_loud h
        cases h
      | version =>
        rw [invocation, settle_loud] at h
        obtain ⟨settled, -, h⟩ := exists_of_bind_loud h
        cases h
    | switchWithValue s value => cases h
    | slot slot value =>
      rw [invocation, named_loud] at h
      obtain ⟨next, -, h⟩ := exists_of_bind_loud h
      exact ih h
    | word t =>
      rw [invocation, word_loud] at h
      obtain ⟨next, -, h⟩ := exists_of_bind_loud h
      exact ih h
    | operand t =>
      rw [invocation, operand_loud] at h
      obtain ⟨next, -, h⟩ := exists_of_bind_loud h
      exact ih h
    | unknown shown => cases h

/-- Items that make a request without the switch make the same one, but for the logging, after
it. -/
theorem invocation_loud {progress : Progress} {items : List Item} {request : Request}
    (h : progress.invocation items = .ok (.run request)) (hv : request.verbose = false) :
    progress.loud.invocation items = .ok (.run { request with verbose := true }) := by
  induction items generalizing progress with
  | nil =>
    rw [invocation] at h ⊢
    rw [request_loud]
    cases hr : progress.request with
    | error e =>
      rw [hr] at h
      cases h
    | ok r =>
      rw [hr] at h
      cases h
      rfl
  | cons item rest ih =>
    cases item with
    | switch s =>
      cases s with
      | verbose =>
        rw [invocation] at h
        obtain ⟨settled, -, h⟩ := exists_of_bind h
        obtain ⟨next, hnext, h⟩ := exists_of_bind h
        have hloud : next = settled.loud := by
          unfold beVerbose at hnext
          split at hnext
          · cases hnext
          · exact (Except.ok.inj hnext).symm
        rw [hloud] at h
        rw [verbose_of_invocation_loud h] at hv
        cases hv
      | help =>
        rw [invocation] at h
        obtain ⟨settled, -, h⟩ := exists_of_bind h
        cases h
      | version =>
        rw [invocation] at h
        obtain ⟨settled, -, h⟩ := exists_of_bind h
        cases h
    | switchWithValue s value => cases h
    | slot slot value =>
      rw [invocation] at h ⊢
      obtain ⟨next, hnext, h⟩ := exists_of_bind h
      rw [named_loud, hnext]
      exact ih h
    | word t =>
      rw [invocation] at h ⊢
      obtain ⟨next, hnext, h⟩ := exists_of_bind h
      rw [word_loud, hnext]
      exact ih h
    | operand t =>
      rw [invocation] at h ⊢
      obtain ⟨next, hnext, h⟩ := exists_of_bind h
      rw [operand_loud, hnext]
      exact ih h
    | unknown shown => cases h

end Progress

/-- Arguments that make a request without the switch make the same one, but for the logging, with it
in front. -/
theorem ofArguments_verbose {arguments : List Text} {request : Request}
    (h : Invocation.ofArguments arguments = .ok (.run request)) (hv : request.verbose = false) :
    Invocation.ofArguments ("-v".toList :: arguments) =
      .ok (.run { request with verbose := true }) :=
  Progress.invocation_loud h hv

end LaunchOptions.CommandLine

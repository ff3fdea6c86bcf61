import LaunchOptions.Proofs.DecodedText
import LaunchOptions.Proofs.FailFast
import LaunchOptions.Proofs.LineGrammar
import LaunchOptions.Proofs.RunOutcome
import LaunchOptions.Proofs.Substitution

/-!
# The shape of an assembled list

The options of a plan are those of the files, then the overrides, each after substitution. An option
of a file begins with a hyphen and has no line break in it, and neither does a word. Substitution
keeps the hyphen and brings in no line break unless a value has one. So the options of a run fit on
one line.
-/

namespace LaunchOptions

/-- No word has a line break in it. -/
theorem Text.not_mem_of_mem_words {t word : Text} {c : Char} (h : word ∈ words t)
    (hc : c ∈ lineBreaks) : c ∉ word := by
  have hbreak : isWhiteSpace c = true := by
    rcases mem_lineBreaks.mp hc with rfl | rfl <;> decide
  intro hmem
  have hwhite := not_of_mem_pieces (List.mem_of_mem_filter h) hmem
  rw [hbreak] at hwhite
  cases hwhite

/-- The characters of joined texts are theirs or those of the separator. -/
theorem Text.mem_of_mem_joinWith {separator : Text} {ts : List Text} {c : Char}
    (h : c ∈ joinWith separator ts) : c ∈ separator ∨ ∃ t ∈ ts, c ∈ t := by
  fun_induction joinWith separator ts with
  | case1 => cases h
  | case2 t => exact .inr ⟨t, by simp, h⟩
  | case3 t more _ ih =>
    rcases List.mem_append.mp h with h | h
    · rcases List.mem_append.mp h with h | h
      · exact .inr ⟨t, by simp, h⟩
      · exact .inl h
    · rcases ih h with h | ⟨u, hu, h⟩
      · exact .inl h
      · exact .inr ⟨u, List.mem_cons_of_mem t hu, h⟩

namespace OptionLine

/-- The option that a line gives to some version begins with a hyphen. -/
theorem head?_of_optionFor {line option : Text} {version : Nat}
    (h : (classify line).optionFor version = some option) : option.head? = some '-' := by
  rcases optionFor_eq_some_iff.mp h with h | ⟨range, h, -⟩
  · obtain ⟨rfl, hoption⟩ := classify_eq_unconditional_iff.mp h
    exact hoption.1
  · obtain ⟨-, -, hoption, -⟩ := classify_eq_conditional_iff.mp h
    exact hoption.1

end OptionLine

namespace Assembly

variable {view : FileView} {version : Nat} {file : Path} {option : Text}

/-- The options in a file are given by its lines. -/
theorem exists_line_of_mem_givenBy (h : option ∈ givenBy view version file) :
    ∃ content, view.read file = .ok content ∧ ∃ line ∈ contentLines content,
      (OptionLine.classify line).optionFor version = some option := by
  unfold givenBy at h
  split at h
  · next content hread =>
    obtain ⟨line, hline, hoption⟩ := List.mem_filterMap.mp h
    exact ⟨content, hread, line, hline, hoption⟩
  · cases h

/-- An option in a file begins with a hyphen. -/
theorem head?_of_mem_givenBy (h : option ∈ givenBy view version file) :
    option.head? = some '-' := by
  obtain ⟨-, -, line, -, hoption⟩ := exists_line_of_mem_givenBy h
  exact OptionLine.head?_of_optionFor hoption

/-- An option in a file has no line break in it. -/
theorem not_mem_of_mem_givenBy {c : Char} (h : option ∈ givenBy view version file)
    (hc : c ∈ Text.lineBreaks) : c ∉ option := by
  obtain ⟨content, -, line, hline, hoption⟩ := exists_line_of_mem_givenBy h
  intro hmem
  exact not_mem_of_mem_contentLines hline hc
    ((OptionLine.isSuffix_of_optionFor hoption).subset hmem)

/-- The options that the files of a root give to a version, file after file. -/
def givenByFiles (view : FileView) (root : Path) (version : Nat) : List Text :=
  (Discovery.optionsFiles view root).flatMap (givenBy view version)

/-- A plan that succeeds gives the options of the files and then the overrides, each after
substitution. -/
theorem build_eq_append {plan : Assembly} {result : List Text} (h : plan.build view = .ok result) :
    result =
      (givenByFiles view plan.root plan.version).map (Placeholder.substitute plan.bindings) ++
        plan.overrides.map (Placeholder.substitute plan.bindings) := by
  cases hread : readOptions view plan.root plan.version with
  | error e =>
    rw [build_of_error hread] at h
    cases h
  | ok files =>
    obtain ⟨-, rfl⟩ := readOptions_eq_ok_iff.mp hread
    rw [build_of_ok hread, List.map_append] at h
    exact (Except.ok.inj h).symm

/-- A line break in an option of a plan comes from an override or from a value. -/
theorem not_mem_of_mem_build {plan : Assembly} {result : List Text} {c : Char}
    (h : plan.build view = .ok result) (hc : c ∈ Text.lineBreaks)
    (hoverrides : ∀ token ∈ plan.overrides, c ∉ token)
    (hvalues : ∀ binding ∈ plan.bindings.toList, c ∉ binding.2) :
    ∀ entry ∈ result, c ∉ entry := by
  have hsubstitute {original : Text} (horiginal : c ∉ original) :
      c ∉ Placeholder.substitute plan.bindings original := by
    intro hmem
    rcases Placeholder.mem_of_mem_substitute hmem with hmem | ⟨binding, hb, hmem⟩
    · exact horiginal hmem
    · exact hvalues binding hb hmem
  rw [build_eq_append h]
  intro entry hentry
  rcases List.mem_append.mp hentry with hentry | hentry
  · obtain ⟨original, hmem, rfl⟩ := List.mem_map.mp hentry
    obtain ⟨file, -, hgiven⟩ := List.mem_flatMap.mp hmem
    exact hsubstitute (not_mem_of_mem_givenBy hgiven hc)
  · obtain ⟨original, hmem, rfl⟩ := List.mem_map.mp hentry
    exact hsubstitute (hoverrides original hmem)

/-- An option of the files begins with a hyphen after substitution, too. -/
theorem head?_of_mem_substituted {root : Path} {bindings : Bindings} {entry : Text}
    (h : entry ∈ (givenByFiles view root version).map (Placeholder.substitute bindings)) :
    entry.head? = some '-' := by
  obtain ⟨original, hmem, rfl⟩ := List.mem_map.mp h
  obtain ⟨file, -, hgiven⟩ := List.mem_flatMap.mp hmem
  exact Placeholder.head?_substitute (head?_of_mem_givenBy hgiven) (by decide)

end Assembly

namespace CommandLine

variable {view : FileView} {environment : Environment} {wording : Wording}

/-- A command line that succeeds asks for help, for the version, or for a run that passes. -/
theorem exists_passes_of_code_eq_zero {arguments : List Text}
    (h : (run view environment arguments wording).code = 0) :
    Invocation.ofArguments arguments = .ok .help ∨
      Invocation.ofArguments arguments = .ok .version ∨
      ∃ request settings version files,
        Invocation.ofArguments arguments = .ok (.run request) ∧
          request.Passes view environment settings version files := by
  cases hasked : Invocation.ofArguments arguments with
  | error e =>
    rw [run, hasked] at h
    cases h
  | ok invocation =>
    cases invocation with
    | help => exact .inl rfl
    | version => exact .inr (.inl rfl)
    | run request =>
      rcases request.passes_or_fails view environment with
        ⟨settings, version, files, hpasses⟩ | ⟨failure, hfails⟩
      · exact .inr (.inr ⟨request, settings, version, files, rfl, hpasses⟩)
      · rw [run_of_fails hasked hfails] at h
        cases h

/-- A run that passes prints one line if no value that it binds has a line feed in it. -/
theorem exists_line_of_passes {arguments : List Text} {request : Request} {settings : Settings}
    {version : Nat} {files : List Text}
    (h : Invocation.ofArguments arguments = .ok (.run request))
    (hpasses : request.Passes view environment settings version files)
    (hvalues : ∀ binding ∈ (request.plan environment settings version).bindings.toList,
      '\n' ∉ binding.2) :
    ∃ line, (run view environment arguments wording).stdout = line ++ ['\n'] ∧ '\n' ∉ line := by
  obtain ⟨options, hbuild, hoptions⟩ := hpasses.exists_options
  refine ⟨Text.joinWith [' '] options, ?_, ?_⟩
  · rw [run_of_request h, hoptions]
    rfl
  · have hbreak : '\n' ∈ Text.lineBreaks := by decide
    have hwords : ∀ token ∈ (request.plan environment settings version).overrides,
        '\n' ∉ token := by
      intro token htoken
      obtain ⟨value, -, hword⟩ := List.mem_flatMap.mp htoken
      exact Text.not_mem_of_mem_words hword hbreak
    intro hmem
    rcases Text.mem_of_mem_joinWith hmem with hmem | ⟨entry, hentry, hmem⟩
    · exact absurd hmem (by decide)
    · exact Assembly.not_mem_of_mem_build hbuild hbreak hwords hvalues entry hentry hmem

/-- The options of a plan are those that the files give and then the overrides, one for one and
each after substitution for itself. The ones of the files still begin with a hyphen, and there is a
line break in one only if an override or a value has it. So a run that succeeds, other than for help
or the version, prints one line unless a value has a line feed in it. -/
theorem optionList_shape :
    (∀ (plan : Assembly) (view : FileView) (result : List Text), plan.build view = .ok result →
      ∃ files added, result = files ++ added ∧
        files = (Assembly.givenByFiles view plan.root plan.version).map
          (Placeholder.substitute plan.bindings) ∧
        added = plan.overrides.map (Placeholder.substitute plan.bindings) ∧
        (∀ entry ∈ files, entry.head? = some '-') ∧
        ∀ c ∈ Text.lineBreaks, (∀ token ∈ plan.overrides, c ∉ token) →
          (∀ binding ∈ plan.bindings.toList, c ∉ binding.2) → ∀ entry ∈ result, c ∉ entry) ∧
    ∀ (view : FileView) (environment : Environment) (arguments : List Text) (wording : Wording),
      (run view environment arguments wording).code = 0 →
      Invocation.ofArguments arguments ≠ .ok .help →
      Invocation.ofArguments arguments ≠ .ok .version →
      ∃ request settings version files,
        Invocation.ofArguments arguments = .ok (.run request) ∧
        request.Passes view environment settings version files ∧
        ((∀ binding ∈ (request.plan environment settings version).bindings.toList,
            '\n' ∉ binding.2) →
          ∃ line, (run view environment arguments wording).stdout = line ++ ['\n'] ∧
            '\n' ∉ line) := by
  constructor
  · intro plan view result h
    refine ⟨_, _, Assembly.build_eq_append h, rfl, rfl, ?_, ?_⟩
    · intro entry hentry
      exact Assembly.head?_of_mem_substituted hentry
    · intro c hc hoverrides hvalues
      exact Assembly.not_mem_of_mem_build h hc hoverrides hvalues
  · intro view environment arguments wording hcode hhelp hversion
    obtain ⟨request, settings, version, files, h, hpasses⟩ :=
      ((exists_passes_of_code_eq_zero hcode).resolve_left hhelp).resolve_left hversion
    exact ⟨request, settings, version, files, h, hpasses, exists_line_of_passes h hpasses⟩

end CommandLine

end LaunchOptions

import LaunchOptions.CommandLine.Run
import LaunchOptions.Proofs.Pieces
import LaunchOptions.Proofs.VerboseSwitch
import Mathlib.Data.List.Basic

/-!
# The outcome of a run

A request passes its stages in order: settings, version, files. If it passes them all, the outcome
is one line of options. Otherwise the outcome is the report of the first stage that fails, and what
the later stages would look at does not count. The report tells the failure and all causes behind
it.
-/

namespace LaunchOptions

/-- Settings depend on what is read of the settings file, and on no other file. -/
theorem Settings.load_congr {view view' : FileView} {config : Option Path}
    (h : ∀ file ∈ config, view.read file = view'.read file) :
    load view config = load view' config := by
  cases config with
  | none => rfl
  | some file =>
    have hread : view.read file = view'.read file := h file rfl
    simp only [load, FileView.settingsFile, hread]

/-- Overrides and placeholders do not fail: a plan has options if its files give some. -/
theorem Assembly.build_of_ok {plan : Assembly} {view : FileView} {options : List Text}
    (h : readOptions view plan.root plan.version = .ok options) :
    plan.build view =
      .ok ((options ++ plan.overrides).map (Placeholder.substitute plan.bindings)) := by
  rw [build, h]
  rfl

/-- A plan fails as its files do. -/
theorem Assembly.build_of_error {plan : Assembly} {view : FileView} {e : OptionsError}
    (h : readOptions view plan.root plan.version = .error e) : plan.build view = .error e := by
  rw [build, h]
  rfl

namespace CommandLine

/-- The request passes all its stages: settings are loaded, a version is recognised in what the
request, the environment or the settings name as such, and the files give options. -/
structure Request.Passes (request : Request) (view : FileView) (environment : Environment)
    (settings : Settings) (version : Nat) (options : List Text) : Prop where
  load : Settings.load view request.config = .ok settings
  recognise : RuntimeVersion.major (request.versionText environment settings) = .ok version
  read : Assembly.readOptions view request.path version = .ok options

/-- The request fails in a stage after it has passed the ones before. -/
inductive Request.Fails (request : Request) (view : FileView) (environment : Environment) :
    Failure → Prop where
  | load {e : SettingsError} (h : Settings.load view request.config = .error e) :
    Fails request view environment (.settings e)
  | recognise {settings : Settings} {e : OptionsError}
    (hload : Settings.load view request.config = .ok settings)
    (h : RuntimeVersion.major (request.versionText environment settings) = .error e) :
    Fails request view environment (.version e)
  | read {settings : Settings} {version : Nat} {e : OptionsError}
    (hload : Settings.load view request.config = .ok settings)
    (hrecognise : RuntimeVersion.major (request.versionText environment settings) = .ok version)
    (h : Assembly.readOptions view request.path version = .error e) :
    Fails request view environment (.assembly request.path e)

/-! ### What a report tells -/

namespace Report

/-- A cause is told in full: without what stands before them, its lines are those of the cause. -/
theorem map_drop_causeLines (mark cause : Text) :
    (causeLines mark cause).map (List.drop mark.length) = cause.pieces (· = '\n') := by
  unfold causeLines
  cases cause.pieces (· = '\n') with
  | nil => rfl
  | cons first rest =>
    have hrest (line : Text) :
        (List.replicate mark.length ' ' ++ line).drop mark.length = line := by
      rw [List.drop_append_of_le_length (by simp), List.drop_of_length_le (by simp),
        List.nil_append]
    simp [Function.comp_def, hrest]

/-- Each of some causes is told. -/
theorem exists_causeLines_infix {told : List Text} {cause : Text} (h : cause ∈ told) :
    ∃ mark, causeLines mark cause <:+: causes told := by
  cases told with
  | nil => cases h
  | cons first rest =>
    cases rest with
    | nil =>
      obtain rfl := List.mem_singleton.mp h
      exact ⟨List.replicate 4 ' ', [[], "Caused by:".toList], [], by simp [causes]⟩
    | cons second more =>
      obtain ⟨index, hindex⟩ := List.getElem?_of_mem h
      have hmem : (cause, index) ∈ (first :: second :: more).zipIdx :=
        List.mem_zipIdx_iff_getElem?.mpr hindex
      have hlines : countedLines (cause, index) <:+:
          (first :: second :: more).zipIdx.flatMap countedLines :=
        List.infix_of_mem_flatten (List.mem_map_of_mem hmem)
      have htold : (first :: second :: more).zipIdx.flatMap countedLines <:+
          causes (first :: second :: more) :=
        List.suffix_append [[], "Caused by:".toList] _
      exact ⟨causeMark index, hlines.trans htold.isInfix⟩

end Report

/-- A failure is reported with its message and all causes behind it, unless it is one of invalid
lines, which have a report of their own. -/
theorem Failure.report_tells {failure : Failure}
    (h : ∀ root file lines, failure ≠ .assembly root (.invalidLines file lines))
    (environment : Environment) (wording : Wording) :
    (failure.report environment wording).head? = some ("Error: ".toList ++ failure.message) ∧
      ∀ cause ∈ failure.causes wording, ∃ mark,
        Report.causeLines mark cause <:+: failure.report environment wording := by
  have haccount : failure.account wording =
      ("Error: ".toList ++ failure.message) :: Report.causes (failure.causes wording) := by
    unfold account
    split
    · next root file lines => exact absurd rfl (h root file lines)
    · rfl
  rw [report, haccount]
  refine ⟨rfl, fun cause hcause ↦ ?_⟩
  obtain ⟨mark, hlines⟩ := Report.exists_causeLines_infix hcause
  exact ⟨mark, (hlines.trans (List.suffix_cons _ _).isInfix).trans (List.prefix_append _ _).isInfix⟩

namespace Request

variable {request : Request} {view : FileView} {environment : Environment}

/-- A request passes all stages or fails in one. -/
theorem passes_or_fails (request : Request) (view : FileView) (environment : Environment) :
    (∃ settings version options, request.Passes view environment settings version options) ∨
      ∃ failure, request.Fails view environment failure := by
  cases hload : Settings.load view request.config with
  | error e => exact .inr ⟨_, .load hload⟩
  | ok settings =>
    cases hversion : RuntimeVersion.major (request.versionText environment settings) with
    | error e => exact .inr ⟨_, .recognise hload hversion⟩
    | ok version =>
      cases hread : Assembly.readOptions view request.path version with
      | error e => exact .inr ⟨_, .read hload hversion hread⟩
      | ok options => exact .inl ⟨settings, version, options, hload, hversion, hread⟩

/-- A request that passes gives the options of its plan. -/
theorem Passes.exists_options {settings : Settings} {version : Nat} {files : List Text}
    (h : request.Passes view environment settings version files) :
    ∃ options, (request.plan environment settings version).build view = .ok options ∧
      request.options view environment = .ok options := by
  have hread : Assembly.readOptions view (request.plan environment settings version).root
      (request.plan environment settings version).version = .ok files := h.read
  refine ⟨_, Assembly.build_of_ok hread, ?_⟩
  simp only [Request.options, h.load, h.recognise, Assembly.build_of_ok hread]

/-- A request that fails has that failure. -/
theorem Fails.options_eq {failure : Failure} (h : request.Fails view environment failure) :
    request.options view environment = .error failure := by
  cases h with
  | load h => simp only [Request.options, h]
  | recognise hload h => simp only [Request.options, hload, h]
  | @read settings version e hload hrecognise h =>
    have hread : Assembly.readOptions view (request.plan environment settings version).root
        (request.plan environment settings version).version = .error e := h
    simp only [Request.options, hload, hrecognise, Assembly.build_of_error hread]

/-- A failure to load settings comes from the settings file alone. -/
theorem Fails.load_congr {request' : Request} {view' : FileView} (environment' : Environment)
    {e : SettingsError} (hconfig : request'.config = request.config)
    (hread : ∀ file ∈ request.config, view'.read file = view.read file)
    (h : Settings.load view request.config = .error e) :
    request'.Fails view' environment' (.settings e) := by
  refine .load ?_
  rw [hconfig, Settings.load_congr hread, h]

/-- A failure to recognise a version comes from the settings file and the text of the version
alone. -/
theorem Fails.recognise_congr {request' : Request} {view' : FileView}
    (environment' : Environment) {settings : Settings} {e : OptionsError}
    (hconfig : request'.config = request.config)
    (hread : ∀ file ∈ request.config, view'.read file = view.read file)
    (htext : request'.versionText environment' settings =
      request.versionText environment settings)
    (hload : Settings.load view request.config = .ok settings)
    (h : RuntimeVersion.major (request.versionText environment settings) = .error e) :
    request'.Fails view' environment' (.version e) := by
  have hload' : Settings.load view' request'.config = .ok settings := by
    rw [hconfig, Settings.load_congr hread, hload]
  exact .recognise hload' (htext ▸ h)

end Request

/-- A command line that asks for a run gives the outcome of its options. -/
theorem run_of_request {arguments : List Text} {request : Request}
    (h : Invocation.ofArguments arguments = .ok (.run request)) (view : FileView)
    (environment : Environment) (wording : Wording) :
    run view environment arguments wording =
      .ofOptions environment wording (request.options view environment) := by
  simp only [run, h, Invocation.outcome]

/-- A command line whose request fails gives the report of the failure. -/
theorem run_of_fails {arguments : List Text} {request : Request} {view : FileView}
    {environment : Environment} {failure : Failure}
    (h : Invocation.ofArguments arguments = .ok (.run request))
    (hfails : request.Fails view environment failure) (wording : Wording) :
    run view environment arguments wording =
      { code := 1, stdout := [],
        stderr := (failure.report environment wording).flatMap (· ++ ['\n']) } := by
  rw [run_of_request h, hfails.options_eq]
  rfl

/-- The same failure gives the same outcome, if the calls that led to it are reported in both runs
or in none. -/
theorem run_eq_of_fails {arguments arguments' : List Text} {request request' : Request}
    {view view' : FileView} {environment environment' : Environment} {failure : Failure}
    (h : Invocation.ofArguments arguments = .ok (.run request))
    (h' : Invocation.ofArguments arguments' = .ok (.run request'))
    (hfails : request.Fails view environment failure)
    (hfails' : request'.Fails view' environment' failure)
    (hcalls : environment'.wantsBacktrace = environment.wantsBacktrace) (wording : Wording) :
    run view' environment' arguments' wording = run view environment arguments wording := by
  rw [run_of_fails h hfails, run_of_fails h' hfails', Failure.report, Failure.report, hcalls]

/-- The outcome of a run. A request that passes all stages gives the options of its plan on one line
and nothing else; any other is reported with the failure of its first stage that fails. What the
later stages look at does not count then: the failure stays, and so does the outcome, unless the
environment asks for calls in one run alone. The switch for more logging never counts. -/
theorem run_outcome {arguments : List Text} {request : Request}
    (h : Invocation.ofArguments arguments = .ok (.run request)) (view : FileView)
    (environment : Environment) (wording : Wording) :
    (∀ settings version files, request.Passes view environment settings version files →
      ∃ options, (request.plan environment settings version).build view = .ok options ∧
        run view environment arguments wording =
          { code := 0, stdout := [' '].intercalate options ++ ['\n'], stderr := [] }) ∧
    (∀ failure, request.Fails view environment failure →
      run view environment arguments wording =
        { code := 1, stdout := [],
          stderr := (failure.report environment wording).flatMap (· ++ ['\n']) }) ∧
    ((∃ settings version files, request.Passes view environment settings version files) ∨
      ∃ failure, request.Fails view environment failure) ∧
    (∀ (view' : FileView) (environment' : Environment) (arguments' : List Text)
      (request' : Request) (e : SettingsError),
      Invocation.ofArguments arguments' = .ok (.run request') → request'.config = request.config →
      (∀ file ∈ request.config, view'.read file = view.read file) →
      Settings.load view request.config = .error e →
      request'.Fails view' environment' (.settings e) ∧
      (environment'.wantsBacktrace = environment.wantsBacktrace →
        run view' environment' arguments' wording = run view environment arguments wording)) ∧
    (∀ (view' : FileView) (environment' : Environment) (arguments' : List Text)
      (request' : Request) (settings : Settings) (e : OptionsError),
      Invocation.ofArguments arguments' = .ok (.run request') → request'.config = request.config →
      (∀ file ∈ request.config, view'.read file = view.read file) →
      request'.versionText environment' settings = request.versionText environment settings →
      Settings.load view request.config = .ok settings →
      RuntimeVersion.major (request.versionText environment settings) = .error e →
      request'.Fails view' environment' (.version e) ∧
      (environment'.wantsBacktrace = environment.wantsBacktrace →
        run view' environment' arguments' wording = run view environment arguments wording)) ∧
    (∀ (arguments' : List Text) (verbose : Bool),
      Invocation.ofArguments arguments' = .ok (.run { request with verbose }) →
      run view environment arguments' wording = run view environment arguments wording) ∧
    (request.verbose = false →
      run view environment ("-v".toList :: arguments) wording =
        run view environment arguments wording) := by
  have hverbose (arguments' : List Text) (verbose : Bool)
      (h' : Invocation.ofArguments arguments' = .ok (.run { request with verbose })) :
      run view environment arguments' wording = run view environment arguments wording := by
    rw [run_of_request h, run_of_request h']
    rfl
  refine ⟨?_, fun failure hfails ↦ run_of_fails h hfails wording,
    request.passes_or_fails view environment, ?_, ?_,
    hverbose, fun hv ↦ hverbose _ true (ofArguments_verbose h hv)⟩
  · intro settings version files hpasses
    obtain ⟨options, hbuild, hoptions⟩ := hpasses.exists_options
    refine ⟨options, hbuild, ?_⟩
    rw [run_of_request h, hoptions, ← Text.joinWith_eq_intercalate]
    rfl
  · intro view' environment' arguments' request' e h' hconfig hread hload
    have hfails' := Request.Fails.load_congr environment' hconfig hread hload
    exact ⟨hfails', fun hcalls ↦ run_eq_of_fails h h' (.load hload) hfails' hcalls wording⟩
  · intro view' environment' arguments' request' settings e h' hconfig hread htext hload hversion
    have hfails' := Request.Fails.recognise_congr environment' hconfig hread htext hload hversion
    exact ⟨hfails',
      fun hcalls ↦ run_eq_of_fails h h' (.recognise hload hversion) hfails' hcalls wording⟩

/-- Where the settings cannot be read, neither the version nor the root is looked at, and the report
tells why they cannot be read. -/
theorem run_outcome_unreadableSettings :
    Invocation.ofArguments
        (["-c", "c.toml", "--java-version=latest", "nowhere"].map String.toList) =
      .ok (.run { path := ⟨"nowhere".toList⟩, javaVersion := some "latest".toList,
                  config := some ⟨"c.toml".toList⟩ }) ∧
    run .nothing (.ofList [])
        (["-c", "c.toml", "--java-version=latest", "nowhere"].map String.toList) {} =
      { code := 1, stdout := [],
        stderr := ("Error: Failed reading config file: c.toml\n\nCaused by:\n" ++
          "    No such file or directory (os error 2)\n").toList } := by
  have h : Invocation.ofArguments
      (["-c", "c.toml", "--java-version=latest", "nowhere"].map String.toList) =
      .ok (.run { path := ⟨"nowhere".toList⟩, javaVersion := some "latest".toList,
                  config := some ⟨"c.toml".toList⟩ }) := rfl
  exact ⟨h, (run_outcome h .nothing (.ofList []) {}).2.1 _ (.load rfl)⟩

end CommandLine

end LaunchOptions

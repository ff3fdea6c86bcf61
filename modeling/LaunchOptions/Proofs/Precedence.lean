import LaunchOptions.Proofs.GivenValues
import LaunchOptions.Proofs.OrderedMap
import LaunchOptions.Proofs.RunOutcome

/-!
# Where values come from

The version, the placeholders and the overrides of a run can each come from more than one place.
The command line comes before the environment, and the environment before the settings. What a run
comes to depends on the environment through the variables that are consulted for these, and through
no others; but the report of a failure ends in the calls that led to it if the environment asks for
them.

A variable is looked up in the entries of the process, and what is found is the value of the
variable of that name, as long as the name has no `=`.
-/

namespace LaunchOptions

/-- The first of some texts that is there, or else the empty text. -/
def Text.firstOf (candidates : List (Option Text)) : Text := (candidates.findSome? id).getD []

/-- Among the bindings of an environment, a key that is one of the names has the value of the
variable. -/
theorem Environment.lookup_bindings (environment : Environment) (names : List Text) (key : Text) :
    OrderedMap.lookup (environment.bindings names).reverse key =
      if key ∈ names then environment.get? key else none := by
  induction names with
  | nil => rfl
  | cons name rest ih =>
    cases hvalue : environment.get? name with
    | none =>
      have hskip : environment.bindings (name :: rest) = environment.bindings rest := by
        simp [bindings, hvalue]
      rw [hskip, ih]
      by_cases hkey : key = name
      · simp [hkey, hvalue]
      · simp [hkey]
    | some value =>
      have hcons : environment.bindings (name :: rest) =
          (name, value) :: environment.bindings rest := by
        simp [bindings, hvalue]
      rw [hcons, List.reverse_cons, OrderedMap.lookup_append, ih, OrderedMap.lookup_cons]
      by_cases hkey : key = name
      · subst hkey
        by_cases hrest : key ∈ rest <;> simp [hrest, hvalue]
      · have hname : compare name key ≠ .eq := by
          simpa using Ne.symm hkey
        simp [hkey, hname, OrderedMap.lookup]

/-! ### The entries of a process -/

namespace Environment

/-- An entry of a variable has a value for the name of that variable, and for no other name without
`=`. -/
theorem entryValue?_append {name other : Text} (hname : '=' ∉ name) (hother : '=' ∉ other)
    (value : Text) :
    entryValue? name (other ++ '=' :: value) = if other = name then some value else none := by
  have hbegins : name ++ ['='] <+: other ++ '=' :: value ↔ other = name := by
    constructor
    · rintro ⟨rest, hrest⟩
      rw [List.append_assoc, List.singleton_append] at hrest
      have hkeys := congrArg (List.takeWhile (· ≠ '=')) hrest
      rw [Text.takeWhile_ne_append hname, Text.takeWhile_ne_append hother] at hkeys
      exact hkeys.symm
    · rintro rfl
      exact ⟨value, by simp⟩
  unfold entryValue?
  simp only [List.isPrefixOf_iff_prefix, hbegins]
  split
  · next hsame => simp [hsame]
  · rfl

private theorem findSome?_entryValue? {name : Text} (hname : '=' ∉ name)
    {entries : List (Text × Text)} (h : ∀ entry ∈ entries, '=' ∉ entry.1) :
    (entries.map fun (name, value) ↦ name ++ '=' :: value).findSome? (entryValue? name) =
      OrderedMap.lookup entries name := by
  induction entries with
  | nil => rfl
  | cons entry rest ih =>
    obtain ⟨hentry, hrest⟩ := List.forall_mem_cons.mp h
    rw [List.map_cons, List.findSome?_cons, ih hrest, OrderedMap.lookup_cons,
      entryValue?_append hname hentry]
    by_cases hsame : entry.1 = name <;> simp [hsame]

private theorem lookup_eq_lookup (entries : List (Text × Text)) (name : Text) :
    OrderedMap.lookup entries name = entries.lookup name := by
  induction entries with
  | nil => rfl
  | cons entry rest ih =>
    rw [OrderedMap.lookup_cons, List.lookup_cons, ih]
    by_cases hsame : entry.1 = name
    · simp [hsame]
    · have hback : (name == entry.1) = false := by simpa using Ne.symm hsame
      simp [hsame, hback]

/-- A lookup of a name without `=` gives the last value of the variable of that name. -/
theorem get?_ofProcess {values : List (Text × Text)} {name : Text} (hname : name ≠ [])
    (hfree : '=' ∉ name) (hvalues : ∀ entry ∈ values, '=' ∉ entry.1) :
    (ofProcess values).get? name = (ofList values).get? name := by
  have hentries : ∀ entry ∈ (OrderedMap.ofList values).toList, '=' ∉ entry.1 := by
    intro entry hentry
    have hfound := OrderedMap.get?_eq_some_iff.mpr hentry
    rw [OrderedMap.get?_ofList, OrderedMap.lookup, Option.map_eq_some_iff] at hfound
    obtain ⟨given, hgiven, -⟩ := hfound
    have hsame : given.1 = entry.1 := by simpa using List.find?_some hgiven
    exact hsame ▸ hvalues given (List.mem_reverse.mp (List.mem_of_find?_eq_some hgiven))
  have hfull : name.isEmpty = false := by simpa using hname
  simp only [ofProcess, ofList, hfull, Bool.false_eq_true, if_false]
  rw [findSome?_entryValue? hfree hentries, ← lookup_eq_lookup, ← OrderedMap.get?_ofList]
  rfl

end Environment

namespace CommandLine

/-- The last text among some that binds the key gives it the value. -/
def IsLastBinding (texts : List Text) (key value : Text) : Prop :=
  ∃ before t after, texts = before ++ t :: after ∧ Binds t key value ∧
    ∀ u ∈ after, ∀ other, ¬ Binds u key other

/-- The value of a placeholder: that of the last text that binds it, or else that of the variable of
the same name, if the settings list it. -/
def HasValue (texts : List Text) (environment : Environment) (settings : Settings)
    (key value : Text) : Prop :=
  IsLastBinding texts key value ∨
    (∀ t ∈ texts, ∀ other, ¬ Binds t key other) ∧ key ∈ settings.substitutionVariables ∧
      environment.get? key = some value

/-- A text that is accepted as a binding binds its key to its value, and nothing else. -/
theorem binds_iff_of_binding {t key value : Text} {pair : Text × Text}
    (h : binding t = .ok pair) : Binds t key value ↔ pair = (key, value) := by
  obtain ⟨key', value'⟩ := pair
  obtain ⟨hbinds, -⟩ := binding_eq_ok_iff.mp h
  constructor
  · intro hb
    obtain ⟨hdrop, hkey⟩ := binds_iff.mp hb
    obtain ⟨hdrop', hkey'⟩ := binds_iff.mp hbinds
    rw [← hkey, ← hkey', (List.cons.inj (hdrop.symm.trans hdrop')).2]
  · rintro ⟨⟩
    exact hbinds

/-- A text gives a key its value unless a later one does. -/
theorem isLastBinding_cons {t : Text} {texts : List Text} {key value : Text} :
    IsLastBinding (t :: texts) key value ↔
      IsLastBinding texts key value ∨
        (∀ u ∈ texts, ∀ other, ¬ Binds u key other) ∧ Binds t key value := by
  constructor
  · rintro ⟨before, u, after, he, hb, hafter⟩
    cases before with
    | nil =>
      obtain ⟨rfl, rfl⟩ := List.cons.inj he
      exact .inr ⟨hafter, hb⟩
    | cons first more =>
      obtain ⟨-, rfl⟩ := List.cons.inj he
      exact .inl ⟨more, u, after, rfl, hb, hafter⟩
  · rintro (⟨before, u, after, rfl, hb, hafter⟩ | ⟨hrest, hb⟩)
    · exact ⟨t :: before, u, after, rfl, hb, hafter⟩
    · exact ⟨[], t, texts, rfl, hb, hrest⟩

section Pairs

variable {texts : List Text} {pairs : List (Text × Text)} {key value : Text}

private theorem lookup_singleton_eq_some_iff {t : Text} {pair : Text × Text}
    (h : binding t = .ok pair) :
    OrderedMap.lookup [pair] key = some value ↔ Binds t key value := by
  rw [binds_iff_of_binding h, OrderedMap.lookup_cons]
  simp [OrderedMap.lookup, Prod.ext_iff]

/-- A key is bound to nothing exactly if no text binds it. -/
theorem lookup_reverse_eq_none_iff (h : texts.Forall₂ (fun t pair ↦ binding t = .ok pair) pairs) :
    OrderedMap.lookup pairs.reverse key = none ↔ ∀ t ∈ texts, ∀ other, ¬ Binds t key other := by
  induction h with
  | nil => simp [OrderedMap.lookup]
  | cons hpair _ ih =>
    rw [List.reverse_cons, OrderedMap.lookup_append, Option.or_eq_none_iff, ih,
      List.forall_mem_cons, and_comm, Option.eq_none_iff_forall_ne_some]
    simp only [ne_eq, lookup_singleton_eq_some_iff hpair]

/-- A key is bound to the value that the last text which binds it gives. -/
theorem lookup_reverse_eq_some_iff (h : texts.Forall₂ (fun t pair ↦ binding t = .ok pair) pairs) :
    OrderedMap.lookup pairs.reverse key = some value ↔ IsLastBinding texts key value := by
  induction h with
  | nil => simp [OrderedMap.lookup, IsLastBinding]
  | cons hpair hrest ih =>
    rw [List.reverse_cons, OrderedMap.lookup_append, Option.or_eq_some_iff, ih,
      lookup_reverse_eq_none_iff hrest, lookup_singleton_eq_some_iff hpair, isLastBinding_cons]

end Pairs

/-! ### The parts of a request -/

/-- The options of a request, once the text that names the version, the overrides and the values of
placeholders are known. -/
def Request.optionsWith (request : Request) (view : FileView) (versionText : Text)
    (overrides : List Text) (placeholders : Bindings) : Except Failure (List Text) :=
  match RuntimeVersion.major versionText with
  | .error e => .error (.version e)
  | .ok version =>
    (Assembly.build ⟨request.path, version, overrides, placeholders⟩ view).mapError
      (.assembly request.path)

/-- Of the environment, a request looks at what names the version, at the overrides and at the
values of placeholders. -/
theorem Request.options_eq_optionsWith {request : Request} {view : FileView}
    {settings : Settings} (h : Settings.load view request.config = .ok settings)
    (environment : Environment) :
    request.options view environment =
      request.optionsWith view (request.versionText environment settings)
        (environment.overrides settings.overrideVariables)
        (request.placeholders environment settings) := by
  unfold options optionsWith
  rw [h]
  dsimp only
  cases RuntimeVersion.major (request.versionText environment settings) with
  | error e => rfl
  | ok version =>
    have hplan : request.plan environment settings version =
        ⟨request.path, version, environment.overrides settings.overrideVariables,
          request.placeholders environment settings⟩ := rfl
    dsimp only
    rw [hplan]
    generalize Assembly.build _ view = result
    cases result <;> rfl

section Accepted

variable {arguments : List Text} {request : Request} {environment : Environment}
  {settings : Settings}

/-- The version that a command line names comes first, then the variable, then the settings. -/
theorem versionText_eq_firstOf (h : Invocation.ofArguments arguments = .ok (.run request)) :
    request.versionText environment settings =
      Text.firstOf [(givenValues .javaVersion arguments).head?,
        environment.get? Request.versionVariable, settings.javaVersion] := by
  have hgiven : request.javaVersion.toList = givenValues .javaVersion arguments :=
    holds_givenValues h .javaVersion
  rw [← hgiven, Request.versionText, Text.firstOf]
  cases request.javaVersion with
  | some version => rfl
  | none =>
    cases environment.get? Request.versionVariable with
    | some version => rfl
    | none => cases settings.javaVersion <;> rfl

/-- Placeholders are bound by the command line first, then by the environment. -/
theorem get?_placeholders_iff (h : Invocation.ofArguments arguments = .ok (.run request))
    {key value : Text} :
    (request.placeholders environment settings).get? key = some value ↔
      HasValue (givenValues .substitute arguments) environment settings key value := by
  have hgiven : (givenValues .substitute arguments).Forall₂ (fun t pair ↦ binding t = .ok pair)
      request.bindings := holds_givenValues h .substitute
  rw [Request.placeholders, OrderedMap.get?_ofList, List.reverse_append, OrderedMap.lookup_append,
    Option.or_eq_some_iff, lookup_reverse_eq_some_iff hgiven, lookup_reverse_eq_none_iff hgiven,
    Environment.lookup_bindings, Option.ite_none_right_eq_some, HasValue]

end Accepted

/-! ### Two environments -/

/-- Two environments agree on the variables that matter to a command line with some settings: on
the one that names the version, unless the command line does; on those of the overrides; and on
those of the placeholders that the command line does not bind. -/
structure Agree (arguments : List Text) (settings : Settings)
    (environment environment' : Environment) : Prop where
  version : givenValues .javaVersion arguments = [] →
    environment.get? Request.versionVariable = environment'.get? Request.versionVariable
  overrides : ∀ name ∈ settings.overrideVariables, environment.get? name = environment'.get? name
  placeholders : ∀ name ∈ settings.substitutionVariables,
    (∀ t ∈ givenValues .substitute arguments, ∀ value, ¬ Binds t name value) →
      environment.get? name = environment'.get? name

namespace Agree

variable {arguments : List Text} {request : Request} {settings : Settings}
  {environment environment' : Environment}

/-- The text of the version is the same in both environments. -/
theorem versionText_eq (hagree : Agree arguments settings environment environment')
    (h : Invocation.ofArguments arguments = .ok (.run request)) :
    request.versionText environment settings = request.versionText environment' settings := by
  rw [versionText_eq_firstOf h, versionText_eq_firstOf h]
  cases hgiven : givenValues .javaVersion arguments with
  | nil => rw [hagree.version hgiven]
  | cons version more => rfl

/-- The overrides are the same in both environments. -/
theorem overrides_eq (hagree : Agree arguments settings environment environment') :
    environment.overrides settings.overrideVariables =
      environment'.overrides settings.overrideVariables := by
  rw [Environment.overrides, Environment.overrides, List.filterMap_congr hagree.overrides]

/-- A placeholder has the same value in both environments. -/
theorem hasValue_iff (hagree : Agree arguments settings environment environment')
    (key value : Text) :
    HasValue (givenValues .substitute arguments) environment settings key value ↔
      HasValue (givenValues .substitute arguments) environment' settings key value := by
  refine or_congr_right (and_congr_right fun hfree ↦ and_congr_right fun hmem ↦ ?_)
  rw [hagree.placeholders key hmem hfree]

/-- The placeholders are bound alike in both environments. -/
theorem placeholders_eq (hagree : Agree arguments settings environment environment')
    (h : Invocation.ofArguments arguments = .ok (.run request)) :
    request.placeholders environment settings = request.placeholders environment' settings := by
  apply OrderedMap.ext_get?
  intro key value
  rw [get?_placeholders_iff h, get?_placeholders_iff h, hagree.hasValue_iff]

end Agree

/-- What a request comes to is the same in environments that agree where it matters. -/
theorem options_congr {arguments : List Text} {request : Request} {view : FileView}
    {environment environment' : Environment}
    (h : Invocation.ofArguments arguments = .ok (.run request))
    (hagree : ∀ settings, Settings.load view request.config = .ok settings →
      Agree arguments settings environment environment') :
    request.options view environment = request.options view environment' := by
  cases hload : Settings.load view request.config with
  | error e =>
    have hfails (environment : Environment) : request.Fails view environment (.settings e) :=
      .load hload
    rw [(hfails environment).options_eq, (hfails environment').options_eq]
  | ok settings =>
    have hsame := hagree settings hload
    rw [Request.options_eq_optionsWith hload, Request.options_eq_optionsWith hload,
      hsame.versionText_eq h, hsame.overrides_eq, hsame.placeholders_eq h]

/-! ### What the environment does to an outcome -/

namespace Outcome

variable {environment environment' : Environment}

/-- The environment changes neither the exit code nor the options that are written. -/
theorem ofOptions_code_stdout (environment environment' : Environment) (wording : Wording)
    (result : Except Failure (List Text)) :
    (ofOptions environment wording result).code = (ofOptions environment' wording result).code ∧
      (ofOptions environment wording result).stdout =
        (ofOptions environment' wording result).stdout := by
  cases result with
  | ok options => exact ⟨rfl, rfl⟩
  | error failure => exact ⟨rfl, rfl⟩

/-- The environment counts only in so far as it asks for calls. -/
theorem ofOptions_congr (h : environment.wantsBacktrace = environment'.wantsBacktrace)
    (wording : Wording) (result : Except Failure (List Text)) :
    ofOptions environment wording result = ofOptions environment' wording result := by
  cases result with
  | ok options => rfl
  | error failure => rw [ofOptions, ofOptions, Failure.report, Failure.report, h]

/-- What is reported where no calls are asked for is the beginning of what is reported in any
environment. -/
theorem stderr_ofOptions_prefix (h : environment.wantsBacktrace = false)
    (environment' : Environment) (wording : Wording) (result : Except Failure (List Text)) :
    (ofOptions environment wording result).stderr <+:
      (ofOptions environment' wording result).stderr := by
  cases result with
  | ok options => exact List.prefix_rfl
  | error failure =>
    simp only [ofOptions, Failure.report, h, lines, List.flatMap_append, Bool.false_eq_true,
      if_false, List.append_nil]
    exact List.prefix_append _ _

end Outcome

/-- Where the version, the overrides and the placeholders of a run come from. The version is the one
that the command line names, or else the variable, or else that of the settings. A placeholder has
the last value that the command line gives it, or else that of its variable if the settings list it.
The overrides are the words of the listed variables that are set. So environments that agree on the
variables which then matter give the same exit code and the same options or the same report, but for
the calls at the end of a report if one of them alone asks for calls. A lookup gives the value of
the variable of that name, if the name has no `=`. -/
theorem run_precedence {arguments : List Text} {request : Request}
    (h : Invocation.ofArguments arguments = .ok (.run request)) (view : FileView)
    (wording : Wording) :
    (∀ (environment : Environment) (settings : Settings),
      Settings.load view request.config = .ok settings →
      ∃ placeholders : Bindings,
        (∀ key value, placeholders.get? key = some value ↔
          HasValue (givenValues .substitute arguments) environment settings key value) ∧
        run view environment arguments wording =
          .ofOptions environment wording (request.optionsWith view
            (Text.firstOf [(givenValues .javaVersion arguments).head?,
              environment.get? Request.versionVariable, settings.javaVersion])
            ((settings.overrideVariables.filterMap environment.get?).flatMap Text.words)
            placeholders)) ∧
    (∀ environment environment' : Environment,
      (∀ settings, Settings.load view request.config = .ok settings →
        Agree arguments settings environment environment') →
      (run view environment arguments wording).code =
          (run view environment' arguments wording).code ∧
        (run view environment arguments wording).stdout =
          (run view environment' arguments wording).stdout ∧
        (environment.wantsBacktrace = environment'.wantsBacktrace →
          run view environment arguments wording = run view environment' arguments wording) ∧
        (environment.wantsBacktrace = false →
          (run view environment arguments wording).stderr <+:
            (run view environment' arguments wording).stderr)) ∧
    ∀ (values : List (Text × Text)) (name : Text), name ≠ [] → '=' ∉ name →
      (∀ entry ∈ values, '=' ∉ entry.1) →
      (Environment.ofProcess values).get? name = (Environment.ofList values).get? name := by
  refine ⟨?_, ?_, fun values name ↦ Environment.get?_ofProcess⟩
  · intro environment settings hload
    refine ⟨request.placeholders environment settings, fun _ _ ↦ get?_placeholders_iff h, ?_⟩
    rw [run_of_request h, Request.options_eq_optionsWith hload, versionText_eq_firstOf h]
    rfl
  · intro environment environment' hagree
    rw [run_of_request h, run_of_request h, options_congr h hagree]
    -- The two outcomes are now those of one result, written for each environment.
    obtain ⟨hcode, hstdout⟩ := Outcome.ofOptions_code_stdout environment environment' wording
      (request.options view environment')
    exact ⟨hcode, hstdout, fun hcalls ↦ Outcome.ofOptions_congr hcalls wording _,
      fun hquiet ↦ Outcome.stderr_ofOptions_prefix hquiet environment' wording _⟩

/-- A version and a placeholder that the command line gives hide the variables of those names. -/
theorem run_precedence_hidden :
    Invocation.ofArguments
        (["--java-version=17", "-s", " ES_PATH_CONF =a=b", "conf"].map String.toList) =
      .ok (.run { path := ⟨"conf".toList⟩, javaVersion := some "17".toList,
                  bindings := [("ES_PATH_CONF".toList, "a=b".toList)] }) ∧
    run .nothing (.ofList [("JAVA_VERSION".toList, "8".toList)])
        (["--java-version=17", "-s", " ES_PATH_CONF =a=b", "conf"].map String.toList) {} =
      run .nothing (.ofList [("ES_PATH_CONF".toList, "/etc".toList)])
        (["--java-version=17", "-s", " ES_PATH_CONF =a=b", "conf"].map String.toList) {} := by
  have h : Invocation.ofArguments
      (["--java-version=17", "-s", " ES_PATH_CONF =a=b", "conf"].map String.toList) =
      .ok (.run { path := ⟨"conf".toList⟩, javaVersion := some "17".toList,
                  bindings := [("ES_PATH_CONF".toList, "a=b".toList)] }) := rfl
  have hagree : ∀ settings, Settings.load .nothing none = .ok settings →
      Agree (["--java-version=17", "-s", " ES_PATH_CONF =a=b", "conf"].map String.toList) settings
        (.ofList [("JAVA_VERSION".toList, "8".toList)])
        (.ofList [("ES_PATH_CONF".toList, "/etc".toList)]) := by
    intro settings hload
    obtain rfl : ({} : Settings) = settings := Except.ok.inj hload
    refine ⟨?_, by decide, ?_⟩
    · intro hnone
      cases hnone
    · intro name hname hfree
      obtain rfl : name = "ES_PATH_CONF".toList := by simpa using hname
      refine absurd ?_ (hfree " ES_PATH_CONF =a=b".toList (by decide) "a=b".toList)
      exact ⟨" ES_PATH_CONF ".toList, by decide, by decide, by decide⟩
  have hsame := (run_precedence h .nothing {}).2.1 _ _ hagree
  exact ⟨h, hsame.2.2.1 (by decide)⟩

/-- A file `r` with one option, which has a placeholder with an `=` in its name. Every other file
holds settings that list this name. -/
def equalsSignView : FileView where
  kind? _ := some .regular
  read p := .ok (Utf8.encode (if p.spelling = ['r'] then "-D${A=B}".toList
    else "substitution_env_vars = ['A=B']".toList))
  names _ := []

/-- Environments that agree where it matters can differ in the calls that they ask for, and so in
the report of a failure. Processes whose variables agree can differ in what a lookup of a name with
an `=` finds, and so in the options. -/
theorem not_forall_agree_run_eq :
    (¬ ∀ (view : FileView) (environment environment' : Environment) (arguments : List Text)
      (request : Request) (wording : Wording),
      Invocation.ofArguments arguments = .ok (.run request) →
      (∀ settings, Settings.load view request.config = .ok settings →
        Agree arguments settings environment environment') →
      run view environment arguments wording = run view environment' arguments wording) ∧
    ¬ ∀ (view : FileView) (values values' : List (Text × Text)) (arguments : List Text)
      (request : Request) (wording : Wording),
      Invocation.ofArguments arguments = .ok (.run request) →
      (∀ settings, Settings.load view request.config = .ok settings →
        Agree arguments settings (.ofList values) (.ofList values')) →
      run view (.ofProcess values) arguments wording =
        run view (.ofProcess values') arguments wording := by
  constructor
  · intro h
    have hsame := h .nothing (.ofList []) (.ofList [("RUST_BACKTRACE".toList, ['1'])])
      (["--java-version=x", "r"].map String.toList)
      { path := ⟨['r']⟩, javaVersion := some ['x'] }
      { calls := fun _ ↦ ["   0: <unknown>".toList] } rfl ?_
    · exact absurd hsame (by decide)
    · intro settings hload
      obtain rfl : ({} : Settings) = settings := Except.ok.inj hload
      refine ⟨fun _ ↦ rfl, by decide, ?_⟩
      intro name hname _
      obtain rfl : name = "ES_PATH_CONF".toList := by simpa using hname
      rfl
  · intro h
    have hsame := h equalsSignView [(['A'], "B=c".toList)] []
      (["r", "-c", "l.toml"].map String.toList)
      { path := ⟨['r']⟩, config := some ⟨"l.toml".toList⟩ } {} rfl ?_
    · exact absurd hsame (by decide +kernel)
    · intro settings hload
      have hknown : (Settings.load equalsSignView (some ⟨"l.toml".toList⟩)).toOption =
          some { substitutionVariables := ["A=B".toList] } := by decide +kernel
      rw [hload] at hknown
      obtain rfl : settings = { substitutionVariables := ["A=B".toList] } :=
        Option.some.inj hknown
      refine ⟨fun _ ↦ rfl, by decide, ?_⟩
      intro name hname _
      obtain rfl : name = "A=B".toList := by simpa using hname
      rfl

end CommandLine

end LaunchOptions
